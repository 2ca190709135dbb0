import SprayCC.Cluster.Wire
import SprayCC.Server.Remotes

-- The bookkeeping of the server without the program: which sessions there are, how the server has
-- filed them, and who is paired with whom. The view of a session is how far the server sees it.

namespace SprayCC

def Role.Exec : Role → Prop
  | exec _ => True
  | _      => False

@[simp, grind =]
theorem Role.exec_client {details : TaskDetails} : (client details).Exec ↔ False :=
  .rfl

@[ext]
structure Ledger where
  size    : Nat
  role    : Nat → Role
  opened  : Nat → Prop
  sent    : Nat → List (Nat × Message)
  kind    : Nat → ConnectionType
  partner : Nat → Option Nat
  execs   : List Nat
  tasks   : List Entry
  view    : Nat → Phase

namespace Ledger

-- Client `i` waits for the results of its task, which exec `e` was sent last.
structure Serves (l : Ledger) (e i : Nat) (details : TaskDetails) : Prop where
  exec     : l.partner e = some i
  client   : l.partner i = some e
  role     : l.role i = .client details
  view     : l.view i = .submitted ∨ l.view i = .gone
  unsolved : ∀ m ∈ l.sent i, ¬m.snd.Terminal
  last     : (l.sent e).getLast? = some (i, .task 0 0 details)

structure Sound (l : Ledger) : Prop where
  later     : l.size ≤ i → l.view i = .pending
  pending   : l.view i = .pending →
    l.kind i = .pending ∧ l.partner i = none ∧ (i < l.size → l.sent i = [])
  submitted : l.view i = .submitted →
    (∃ details, l.role i = .client details) ∧ (l.kind i = .client ∨ l.kind i = .dead ∧ ¬l.opened i)
  idle      : l.view i = .idle →
    (l.role i).Exec ∧ l.kind i = .exec ∧ l.partner i = none ∧ i ∈ l.execs
  busy      : l.view i = .busy → (l.role i).Exec ∧ l.kind i = .exec ∧
    ∃ j details, l.Serves i j details
  released  : l.view i = .released → (l.role i).Exec ∧ l.kind i = .dead
  gone      : l.view i = .gone → l.kind i = .dead
  once      : l.execs.Nodup
  queued    : i ∈ l.execs → (l.role i).Exec ∧ l.partner i = none ∧
    (l.view i = .idle ∨ l.view i = .gone)
  single    : l.tasks.map (·.fst.fst) |>.Nodup
  tasked    : ((i, details), prior) ∈ l.tasks →
    l.role i = .client details ∧ l.partner i = none ∧ l.sent i = [] ∧
      (l.view i = .submitted ∨ l.view i = .gone)

def accept (l : Ledger) (role : Role) : Ledger :=
  { l with
    size   := l.size + 1
    role   := Function.update l.role l.size role
    opened := Function.update l.opened l.size True
    sent   := Function.update l.sent l.size [] }

def register (l : Ledger) (i : Nat) : Ledger :=
  { l with
    kind    := Function.update l.kind i .exec
    partner := Function.update l.partner i none
    execs   := l.execs ++ [i]
    view    := Function.update l.view i .idle }

def submit (l : Ledger) (i : Nat) (details : TaskDetails) (prior : Duration) : Ledger :=
  { l with
    kind  := Function.update l.kind i .client
    tasks := pushEntry l.tasks (i, details) prior
    view  := Function.update l.view i .submitted }

def finish (l : Ledger) (i : Nat) : Ledger :=
  { l with
    partner := Function.update l.partner i none
    execs   := l.execs ++ [i]
    view    := Function.update l.view i .idle }

def drop (l : Ledger) (i : Nat) : Ledger :=
  { l with
    kind := Function.update l.kind i .dead
    view := Function.update l.view i .gone }

def lose (l : Ledger) (i : Nat) : Ledger :=
  { l with kind := Function.update l.kind i .dead }

def put (l : Ledger) (about dest : Nat) (msg : Message) : Ledger :=
  { l with sent := Function.update l.sent dest (l.sent dest ++ [(about, msg)]) }

-- The exec which is taken off the queue may have been left there for dead.
def assign (l : Ledger) (k : Nat) (rest : List Nat) (i e : Nat) (details : TaskDetails) : Ledger :=
  { l with
    sent    := Function.update l.sent e (l.sent e ++ [(i, .task 0 0 details)])
    partner := Function.update (Function.update l.partner i (some e)) e (some i)
    execs   := rest
    tasks   := l.tasks.eraseIdx k
    view    := Function.update l.view e (if l.view e = .gone then .gone else .busy) }

def release (l : Ledger) (e : Nat) (rest : List Nat) : Ledger :=
  { l with
    sent  := Function.update l.sent e (l.sent e ++ [(e, .pissOff)])
    kind  := Function.update l.kind e .dead
    execs := rest
    view  := Function.update l.view e (if l.view e = .gone then .gone else .released) }

variable {l : Ledger} {i j e : Nat} {details : TaskDetails} {prior : Duration} {msg : Message}
variable {rest : List Nat} {k : Nat}

theorem Serves.frame {l' : Ledger} (h : l.Serves e i details) (he : l'.partner e = l.partner e)
    (hi : l'.partner i = l.partner i) (hr : l'.role i = l.role i)
    (hv : l'.view i = l.view i ∨ l'.view i = .gone) (hse : l'.sent e = l.sent e)
    (hsi : ∀ m ∈ l'.sent i, m ∈ l.sent i ∨ ¬m.snd.Terminal) : l'.Serves e i details where
  exec         := he.trans h.exec
  client       := hi.trans h.client
  role         := hr.trans h.role
  view         := hv.elim (· ▸ h.view) .inr
  unsolved m _ := (hsi m ‹_›).elim (h.unsolved m) id
  last         := hse ▸ h.last

theorem pushEntry_of_new {queue : List Entry} (h : ∀ e ∈ queue, e.fst.fst ≠ i) :
    pushEntry queue (i, details) prior = queue ++ [((i, details), prior)] := by
  have hn : ¬queue.any (·.fst = (i, details)) := by
    simp only [List.any_eq_true, decide_eq_true_eq, not_exists, not_and]
    exact fun e he hi => h e he (congrArg Prod.fst hi)
  simp [pushEntry, hn]

namespace Sound

theorem lt_size (h : l.Sound) (hv : l.view i ≠ .pending) : i < l.size :=
  not_le.mp <| mt h.later hv

-- The sessions of the remotes which are filed as execs, and as clients.

theorem exec_cases (h : l.Sound) (hk : l.kind i = .exec) :
    l.view i = .idle ∧ l.partner i = none ∨ l.view i = .busy ∧ l.partner i ≠ none := by
  cases hv : l.view i
  case idle      => exact .inl ⟨rfl, (h.idle hv).right.right.left⟩
  case busy      =>
    have ⟨_, _, _, _, hs⟩ := h.busy hv
    exact .inr ⟨rfl, by simp [hs.exec]⟩
  case submitted => rcases (h.submitted hv).right with hk' | ⟨hk', _⟩ <;> simp [hk'] at hk
  case pending   => simp [(h.pending hv).left] at hk
  case released  => simp [(h.released hv).right] at hk
  case gone      => simp [h.gone hv] at hk

theorem client_view (h : l.Sound) (hk : l.kind i = .client) : l.view i = .submitted := by
  cases hv : l.view i
  case submitted => rfl
  case idle      => simp [(h.idle hv).right.left] at hk
  case busy      => simp [(h.busy hv).right.left] at hk
  case pending   => simp [(h.pending hv).left] at hk
  case released  => simp [(h.released hv).right] at hk
  case gone      => simp [h.gone hv] at hk

theorem serves_lt_size (h : l.Sound) (hs : l.Serves e i details) : i < l.size :=
  h.lt_size <| by rcases hs.view with hv | hv <;> simp [hv]

theorem accept {role : Role} (h : l.Sound) : (l.accept role).Sound := by
  have hl := h.later (i := l.size) le_rfl
  constructor <;> simp only [Ledger.accept, Function.update_apply]
  case busy =>
    intro e he
    have ⟨hr, hk, j, d, hs⟩ := h.busy he
    have hj : j ≠ l.size := by grind [hs.view]
    have he : e ≠ l.size := by grind
    exact ⟨by simp [he, hr], hk, j, d,
      hs.frame rfl rfl (by simp [hj]) (.inl rfl) (by simp [he]) (by simp [hj]; grind)⟩
  case once   => exact h.once
  case single => exact h.single
  case queued => intro j hj; have := h.queued hj; grind
  case tasked => intro j d p hm; have := h.tasked hm; grind
  all_goals grind [h.later, h.pending, h.submitted, h.idle, h.released, h.gone]

theorem closes {opened : Nat → Prop} (h : l.Sound) (ho : ∀ i, opened i → l.opened i) :
    Sound { l with opened } where
  __ := h
  busy hv      := have ⟨hr, hk, j, d, hs⟩ := h.busy hv; ⟨hr, hk, j, d, { hs with }⟩
  submitted hv := (h.submitted hv).imp_right fun hk => hk.imp_right fun hk =>
    ⟨hk.left, mt (ho _) hk.right⟩

theorem register (h : l.Sound) (hi : i < l.size) (hv : l.view i = .pending) (hr : (l.role i).Exec) :
    (l.register i).Sound := by
  have hp := h.pending hv
  constructor <;> simp only [Ledger.register, Function.update_apply]
  case busy =>
    intro e he
    split at he <;> [cases he; skip]
    have ⟨hr, hk, j, d, hs⟩ := h.busy he
    have hj : j ≠ i := by grind [hs.view]
    exact ⟨hr, by grind, j, d,
      hs.frame (by simp_all) (by simp [hj]) rfl (by simp [hj]) rfl (by simp; grind)⟩
  case once   => have := h.queued (i := i); grind [h.once]
  case single => exact h.single
  case queued => intro j _; have := h.queued (i := j); grind
  case tasked => intro j d p hm; have := h.tasked hm; grind
  all_goals grind [h.later, h.pending, h.submitted, h.idle, h.released, h.gone]

theorem submit (h : l.Sound) (hi : i < l.size) (hv : l.view i = .pending)
    (hr : l.role i = .client details) : (l.submit i details prior).Sound := by
  have hp := h.pending hv
  have hn : ∀ e ∈ l.tasks, e.fst.fst ≠ i := by
    intro ((_, _), _) hm hi
    have := h.tasked hm
    grind
  constructor <;> simp only [Ledger.submit, Function.update_apply, pushEntry_of_new hn]
  case busy =>
    intro e he
    split at he <;> [cases he; skip]
    have ⟨hr, hk, j, d, hs⟩ := h.busy he
    have hj : j ≠ i := by grind [hs.view]
    exact ⟨hr, by grind, j, d, hs.frame rfl rfl rfl (by simp [hj]) rfl (by simp; grind)⟩
  case once   => exact h.once
  case single =>
    rw [List.map_append, List.nodup_append]
    exact ⟨h.single, by simp, by simpa using fun j d p hm hj => hn _ hm hj⟩
  case queued => intro j hj; have := h.queued hj; grind
  case tasked =>
    intro j d p hm
    have := @h.tasked j d p
    grind
  all_goals grind [h.later, h.pending, h.submitted, h.idle, h.released, h.gone]

theorem finish (h : l.Sound) (hv : l.view i = .busy) : (l.finish i).Sound := by
  have ⟨hr, hk, _⟩ := h.busy hv
  constructor <;> simp only [Ledger.finish, Function.update_apply]
  case busy =>
    intro e he
    split at he <;> [cases he; skip]
    have ⟨hr, hk, j, d, hs⟩ := h.busy he
    have hj : j ≠ i := by grind [hs.view]
    exact ⟨hr, hk, j, d, hs.frame (by simp_all) (by simp [hj]) rfl (by simp [hj]) rfl
      (by simp; grind)⟩
  case once   => have := h.queued (i := i); grind [h.once]
  case single => exact h.single
  case queued => intro j _; have := h.queued (i := j); grind
  case tasked => intro j d p hm; have := h.tasked hm; grind
  all_goals grind [h.later, h.pending, h.submitted, h.idle, h.released, h.gone]

theorem drop (h : l.Sound) (hi : i < l.size) : (l.drop i).Sound := by
  constructor <;> simp only [Ledger.drop, Function.update_apply]
  case busy =>
    intro e he
    split at he <;> [cases he; skip]
    have ⟨hr, hk, j, d, hs⟩ := h.busy he
    exact ⟨hr, by grind, j, d, hs.frame rfl rfl rfl (by simp; grind) rfl (by simp; grind)⟩
  case once   => exact h.once
  case single => exact h.single
  case queued => intro j hj; have := h.queued hj; grind
  case tasked => intro j d p hm; have := h.tasked hm; grind
  all_goals grind [h.later, h.pending, h.submitted, h.idle, h.released, h.gone]

theorem lose (h : l.Sound) (hv : l.view i = .submitted) (ho : ¬l.opened i) : (l.lose i).Sound := by
  constructor <;> simp only [Ledger.lose, Function.update_apply]
  case busy =>
    intro e he
    have ⟨hr, hk, j, d, hs⟩ := h.busy he
    exact ⟨hr, by grind, j, d, hs.frame rfl rfl rfl (.inl rfl) rfl (by simp; grind)⟩
  case submitted => intro j hj; have := h.submitted hj; grind
  case once   => exact h.once
  case single => exact h.single
  case queued => exact h.queued
  case tasked => exact h.tasked
  all_goals grind [h.later, h.pending, h.submitted, h.idle, h.released, h.gone]

-- A message for a client which has been paired, unless it is the end of a task that still runs.
theorem put (h : l.Sound) (hv : l.view j = .submitted ∨ l.view j = .gone)
    (hr : l.role j = .client details) (hp : l.partner j ≠ none)
    (ht : msg.Terminal → ∀ e, l.view e = .busy → l.partner e ≠ some j) :
    (l.put i j msg).Sound := by
  constructor <;> simp only [Ledger.put, Function.update_apply]
  case busy =>
    intro e he
    have ⟨hr', hk, j', d, hs⟩ := h.busy he
    have hj : e ≠ j := by rintro rfl; simp [hr] at hr'
    refine ⟨hr', hk, j', d, hs.frame rfl rfl rfl (.inl rfl) (by simp [hj]) ?_⟩
    have := hs.exec
    grind
  case once   => exact h.once
  case single => exact h.single
  case queued => exact h.queued
  case tasked => intro j d p hm; have := h.tasked hm; grind
  all_goals grind [h.later, h.pending, h.submitted, h.idle, h.released, h.gone]

-- A client is served by one exec only.
theorem serves_unique (h : l.Sound) (hs : l.Serves e j details) (hv : l.view i = .busy)
    (hp : l.partner i = some j) : i = e := by
  have ⟨_, _, _, _, hs'⟩ := h.busy hv
  cases hs'.exec.symm.trans hp
  exact Option.some.inj <| hs'.client.symm.trans hs.client

theorem serves_ne (h : l.Sound) (hv : l.view e = .busy) (hs : l.Serves e j details) : j ≠ e := by
  have ⟨hr, _⟩ := h.busy hv
  rintro rfl
  simp [hs.role] at hr

-- The last message for a client, on account of the exec which has finished its task or is gone.

theorem finish_put (h : l.Sound) (hv : l.view e = .busy) (hs : l.Serves e j details) :
    ((l.finish e).put e j msg).Sound := by
  have hj := h.serves_ne hv hs
  have hc := hs.client
  refine (h.finish hv).put (by simpa [Ledger.finish, hj] using hs.view) hs.role
    (by simp [Ledger.finish, hj, hc]) fun _ e' hv' hp' => ?_
  have := h.serves_unique hs (i := e')
  simp only [Ledger.finish, Function.update_apply] at hv' hp'
  grind

theorem finish_lose (h : l.Sound) (hv : l.view e = .busy) (hs : l.Serves e j details)
    (hk : l.kind j = .client) (ho : ¬l.opened j) : ((l.finish e).lose j).Sound := by
  have hj := h.serves_ne hv hs
  exact (h.finish hv).lose (by simpa [Ledger.finish, hj] using h.client_view hk) ho

theorem drop_put (h : l.Sound) (hv : l.view e = .busy) (hs : l.Serves e j details) :
    ((l.drop e).put e j msg).Sound := by
  have hj := h.serves_ne hv hs
  have hc := hs.client
  refine (h.drop (h.lt_size <| by simp [hv])).put (by simpa [Ledger.drop, hj] using hs.view) hs.role
    (by simp [Ledger.drop, hc]) fun _ e' hv' hp' => ?_
  have := h.serves_unique hs (i := e')
  simp only [Ledger.drop, Function.update_apply] at hv' hp'
  grind

theorem of_mem_eraseIdx (h : l.Sound) (hk : l.tasks[k]? = some ((i, details), prior)) {t : Entry}
    (ht : t ∈ l.tasks.eraseIdx k) : t ∈ l.tasks ∧ t.fst.fst ≠ i := by
  have ⟨n, hn, ht⟩ := List.mem_eraseIdx_iff_getElem?.mp ht
  have hl := List.getElem?_eq_some_iff.mp ht |>.choose
  refine ⟨List.mem_of_getElem? ht, fun hi => hn ?_⟩
  exact List.getElem?_inj (by simpa using hl) h.single |>.mp (by simp [ht, hk, hi])

theorem assign (h : l.Sound) (hk : l.tasks[k]? = some ((i, details), prior))
    (he : l.execs = e :: rest) : (l.assign k rest i e details).Sound := by
  have ⟨hri, hpi, hsi, hvi⟩ := h.tasked <| List.mem_of_getElem? hk
  have ⟨hre, hpe, hve⟩ := h.queued (i := e) (he ▸ List.mem_cons_self)
  have hie : i ≠ e := by rintro rfl; simp [hri] at hre
  have ho := List.nodup_cons.mp <| he ▸ h.once
  constructor <;> simp only [Ledger.assign, Function.update_apply]
  case busy =>
    intro e' he'
    by_cases hee : e' = e
    case pos =>
      subst hee
      refine ⟨hre, by grind [h.idle], i, details, by simp, by simp [hie], hri, ?_, ?_, by simp⟩
      · simpa [hie] using hvi
      · simp [hie, hsi]
    case neg =>
      have ⟨hr, hk, j, d, hs⟩ := h.busy (i := e') (by simpa [hee] using he')
      have hj : j ≠ e := by rintro rfl; simp [hs.role] at hre
      have hji : j ≠ i := by rintro rfl; simp [hs.client] at hpi
      have hei : e' ≠ i := by rintro rfl; simp [hri] at hr
      exact ⟨hr, hk, j, d, hs.frame (by simp [hee, hei]) (by simp [hj, hji]) rfl
        (by simp [hj]) (by simp [hee]) (by simp [hj]; grind)⟩
  case once   => exact ho.right
  case single => exact h.single.sublist <| (List.eraseIdx_sublist ..).map _
  case queued => intro j hj; have := h.queued (i := j); grind
  case tasked =>
    intro j d p hm
    have ⟨hm, hj⟩ := h.of_mem_eraseIdx hk hm
    have := h.tasked hm
    grind
  case idle      => intro j hj; have := h.idle (i := j); grind
  case submitted => intro j hj; have := h.submitted (i := j); grind
  all_goals grind [h.later, h.pending, h.released, h.gone]

theorem release (h : l.Sound) (he : l.execs = e :: rest) : (l.release e rest).Sound := by
  have ⟨hre, hpe, hve⟩ := h.queued (i := e) (he ▸ List.mem_cons_self)
  have ho := List.nodup_cons.mp <| he ▸ h.once
  constructor <;> simp only [Ledger.release, Function.update_apply]
  case busy =>
    intro e' he'
    have hee : e' ≠ e := by grind
    have ⟨hr, hk, j, d, hs⟩ := h.busy (i := e') (by simpa [hee] using he')
    have hj : j ≠ e := by rintro rfl; simp [hs.role] at hre
    exact ⟨hr, by simpa [hee], j, d, hs.frame rfl rfl rfl (by simp [hj]) (by simp [hee])
      (by simp [hj]; grind)⟩
  case once   => exact ho.right
  case single => exact h.single
  case queued => intro j hj; have := h.queued (i := j); grind
  case tasked => intro j d p hm; have := h.tasked hm; grind
  case idle      => intro j hj; have := h.idle (i := j); grind
  case submitted => intro j hj; have := h.submitted (i := j); grind
  all_goals grind [h.later, h.pending, h.released, h.gone]

end Sound
end Ledger
end SprayCC
