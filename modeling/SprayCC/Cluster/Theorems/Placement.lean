import SprayCC.Cluster.Theorems.Records

-- Where the tasks of the clients are.

namespace SprayCC
namespace Ledger

-- The task of client `i` waits, or it runs, or the client has been told of its end.
def Placed (l : Ledger) (i : Nat) : Prop :=
  (∃ details prior, ((i, details), prior) ∈ l.tasks) ∨
    (∃ e, l.kind e = .exec ∧ l.partner i = some e ∧ l.partner e = some i) ∨
      ∃ m ∈ l.sent i, m.snd.Terminal

def Tracked (l : Ledger) : Prop :=
  ∀ i, l.kind i = .client → l.Placed i

variable {l l' : Ledger} {i j e k : Nat} {details : TaskDetails} {prior : Duration} {msg : Message}
variable {rest : List Nat}

-- A client keeps its place, or it gets the end of its task instead.
theorem Placed.frame (h : l.Placed i) (ht : ∀ e ∈ l.tasks, e.fst.fst = i → e ∈ l'.tasks)
    (hp : ∀ e, l.kind e = .exec → l.partner i = some e → l.partner e = some i →
      l'.kind e = .exec ∧ l'.partner i = some e ∧ l'.partner e = some i ∨
        ∃ m ∈ l'.sent i, m.snd.Terminal)
    (hs : l.sent i ⊆ l'.sent i) : l'.Placed i := by
  obtain ⟨details, prior, hi⟩ | ⟨e, hk, hi, he⟩ | ⟨m, hm, ht⟩ := h
  · exact .inl ⟨details, prior, ht _ hi rfl⟩
  · exact .inr <| (hp e hk hi he).imp_left fun h => ⟨e, h⟩
  · exact .inr <| .inr ⟨m, hs hm, ht⟩

namespace Tracked

theorem accept {role : Role} (h : l.Tracked) (hs : l.Sound) : (l.accept role).Tracked := by
  intro j hj
  have hn : j ≠ l.size := by
    rintro rfl
    simp [Ledger.accept, hs.pending (hs.later le_rfl)] at hj
  simpa [Placed, Ledger.accept, hn] using h j hj

theorem register (h : l.Tracked) (hs : l.Sound) (hv : l.view i = .pending) :
    (l.register i).Tracked := by
  have ⟨hk, hp, _⟩ := hs.pending hv
  intro j hj
  simp only [Ledger.register, Function.update_apply] at hj
  refine h j (by grind) |>.frame (fun _ he _ => he) (fun e he hj hp => .inl ?_) fun _ => id
  simp only [Ledger.register, Function.update_apply]
  grind

theorem submit (h : l.Tracked) (hs : l.Sound) (hv : l.view i = .pending) :
    (l.submit i details prior).Tracked := by
  have ⟨hk, hp, _⟩ := hs.pending hv
  have hn : ∀ t ∈ l.tasks, t.fst.fst ≠ i := by
    rintro ⟨⟨_, _⟩, _⟩ hm rfl
    simpa [hv] using (hs.tasked hm).right.right.right
  have ht : (l.submit i details prior).tasks = l.tasks ++ [((i, details), prior)] :=
    pushEntry_of_new hn
  intro j hj
  by_cases hji : j = i
  case pos => subst hji; exact .inl ⟨details, prior, by simp [ht]⟩
  case neg =>
    refine h j (by simpa [Ledger.submit, hji] using hj) |>.frame
      (fun _ he _ => ht ▸ List.mem_append_left _ he)
      (fun e he hj hp => .inl ⟨?_, hj, hp⟩) fun _ => id
    simp only [Ledger.submit, Function.update_apply]
    grind

theorem put (h : l.Tracked) : (l.put i j msg).Tracked := by
  intro k hk
  refine h k hk |>.frame (fun _ he _ => he) (fun e he hk hp => .inl ⟨he, hk, hp⟩) fun _ hm => ?_
  simp only [Ledger.put, Function.update_apply]
  split <;> simp_all

theorem lose (h : l.Tracked) (hk : l.kind j = .client) : (l.lose j).Tracked := by
  intro k hk'
  simp only [Ledger.lose, Function.update_apply] at hk'
  refine h k (by grind) |>.frame (fun _ he _ => he)
    (fun e he hk hp => .inl ⟨?_, hk, hp⟩) fun _ => id
  simp only [Ledger.lose, Function.update_apply]
  grind

theorem drop (h : l.Tracked) (hk : l.kind i ≠ .exec ∨ l.partner i = none) : (l.drop i).Tracked := by
  intro k hk'
  simp only [Ledger.drop, Function.update_apply] at hk'
  refine h k (by grind) |>.frame (fun _ he _ => he)
    (fun e he hk hp => .inl ⟨?_, hk, hp⟩) fun _ => id
  simp only [Ledger.drop, Function.update_apply]
  grind

-- The client of a task which has come to an end is told so, if it is still there.

theorem finish (h : l.Tracked) (hx : l.kind i = .exec) (hp : l.partner i = some j)
    (hk : l.kind j ≠ .client) : (l.finish i).Tracked := by
  intro k hk'
  refine h k hk' |>.frame (fun _ he _ => he) (fun e he hk hp => .inl ⟨he, ?_⟩) fun _ => id
  simp only [Ledger.finish, Function.update_apply] at hk' ⊢
  grind

theorem finish_put (h : l.Tracked) (hx : l.kind i = .exec) (hp : l.partner i = some j)
    (ht : msg.Terminal) : ((l.finish i).put i j msg).Tracked := by
  intro k (hk : l.kind k = .client)
  by_cases hj : k = j
  case pos => exact .inr <| .inr ⟨(i, msg), by simp [Ledger.put, hj], ht⟩
  case neg =>
    refine h k hk |>.frame (fun _ he _ => he) (fun e he hke hp => .inl ⟨he, ?_⟩) fun _ hm => ?_
    · simp only [Ledger.finish, Ledger.put, Function.update_apply]
      grind
    · simpa [Ledger.put, Ledger.finish, hj] using hm

theorem finish_lose (h : l.Tracked) (hp : l.partner i = some j) (hk : l.kind j = .client) :
    ((l.finish i).lose j).Tracked := by
  intro k hk'
  simp only [Ledger.finish, Ledger.lose, Function.update_apply] at hk'
  refine h k (by grind) |>.frame (fun _ he _ => he) (fun e he hke hp => .inl ?_) fun _ => id
  simp only [Ledger.finish, Ledger.lose, Function.update_apply]
  grind

theorem drop_put (h : l.Tracked) (hp : l.partner i = some j) (ht : msg.Terminal) :
    ((l.drop i).put i j msg).Tracked := by
  intro k hk
  simp only [Ledger.drop, Ledger.put, Function.update_apply] at hk
  by_cases hj : k = j
  case pos => exact .inr <| .inr ⟨(i, msg), by simp [Ledger.put, hj], ht⟩
  case neg =>
    refine h k (by grind) |>.frame (fun _ he _ => he)
      (fun e he hk hp => .inl ⟨?_, hk, hp⟩) fun _ hm => ?_
    · simp only [Ledger.drop, Ledger.put, Function.update_apply]
      grind
    · simpa [Ledger.put, Ledger.drop, hj] using hm

-- The exec which is sent a task must be there.
theorem assign (h : l.Tracked) (hs : l.Sound) (hk : l.tasks[k]? = some ((i, details), prior))
    (he : l.execs = e :: rest) (hx : l.kind e = .exec) : (l.assign k rest i e details).Tracked := by
  have ⟨_, hpe, _⟩ := hs.queued (i := e) (he ▸ List.mem_cons_self)
  have ⟨_, hpi, _⟩ := hs.tasked <| List.mem_of_getElem? hk
  intro j hj
  by_cases hji : j = i
  case pos =>
    subst hji
    refine .inr <| .inl ⟨e, hx, ?_⟩
    simp only [Ledger.assign, Function.update_apply] at hj ⊢
    grind
  case neg =>
    refine h j hj |>.frame (fun t ht htj => ?_)
      (fun e' he' hj' hp' => .inl ⟨he', ?_⟩) fun _ hm => ?_
    · obtain ⟨n, hn⟩ := List.mem_iff_getElem?.mp ht
      refine List.mem_eraseIdx_iff_getElem?.mpr ⟨n, ?_, hn⟩
      rintro rfl
      cases hn.symm.trans hk
      exact hji htj.symm
    · simp only [Ledger.assign, Function.update_apply]
      grind
    · simp only [Ledger.assign, Function.update_apply]
      split <;> simp_all

theorem release (h : l.Tracked) (hs : l.Sound) (he : l.execs = e :: rest) :
    (l.release e rest).Tracked := by
  have ⟨_, hp, _⟩ := hs.queued (i := e) (he ▸ List.mem_cons_self)
  intro k hk
  simp only [Ledger.release, Function.update_apply] at hk
  refine h k (by grind) |>.frame (fun _ he _ => he)
    (fun e' he hk hp => .inl ⟨?_, hk, hp⟩) fun _ hm => ?_
  · simp only [Ledger.release, Function.update_apply]
    grind
  · simp only [Ledger.release, Function.update_apply]
    split <;> simp_all

end Tracked
end Ledger

-- The message which hands a task to an exec.
def Message.Assigns : Message → Prop
  | task .. => True
  | _       => False

instance : DecidablePred Message.Assigns
  | .task .. => .isTrue trivial
  | .yourObedientServant .. | .taskOutput .. | .taskFailed .. | .taskDone .. |
      .cancelTask | .pissOff
  | .dropped => .isFalse id

-- The connection task of an exec does not fail when it writes a task to its socket.
def Policy.taskWritten : Policy :=
  { any with
    act w a :=
      match a with
      | .breaks i => ∀ m ∈ (w.conns i).sent[(w.conns i).taken]?, ¬m.snd.Assigns
      | _         => true }

-- The tasks of the server's clients, on any view of their sessions.
def ServerState.Tracked (s : ServerState) (w : Net) : Prop :=
  (s.ledger w fun _ => .pending).Tracked

theorem ServerState.Tracked.of_ledger {l : Ledger} {s : ServerState} {w : Net} {view : Nat → Phase}
    (h : l.Tracked) (hl : s.ledger w view = l) : s.Tracked w :=
  show (s.ledger w view).Tracked from hl ▸ h

theorem ServerState.Tracked.of_sent {s : ServerState} {w w' : Net} (h : s.Tracked w)
    (hn : ∀ j, (w'.conns j).sent = (w.conns j).sent) : s.Tracked w' := by
  simpa [ServerState.Tracked, Ledger.Tracked, Ledger.Placed, ServerState.ledger, hn] using h

def Policy.WritesTasks (P : Policy) : Prop :=
  ∀ w i, P.act w (.breaks i) → ∀ m ∈ (w.conns i).sent[(w.conns i).taken]?, ¬m.snd.Assigns

theorem Policy.taskWritten_writesTasks : taskWritten.WritesTasks := by
  intro w i ha
  simpa [taskWritten] using ha

theorem Policy.WritesTasks.and_right {P Q : Policy} (h : Q.WritesTasks) : (P.and Q).WritesTasks :=
  fun _ _ ha => h _ _ (Bool.and_eq_true_iff.mp ha).right

theorem Conn.Step.failed {codes : Codes} {c c' : Conn} {a : Act} {ms : List Message}
    (h : c.Step codes a ms c') (hf : c'.task = .failed) :
    c.task = .failed ∨ a = .breaks a.conn ∧ c.taken < c.sent.length := by
  cases h
  case breaks hl               => exact .inr ⟨rfl, hl⟩
  case takes | starts | leaves => exact .inl hf
  case speaks ht | ends ht     => rcases ht with rfl | rfl <;> cases hf
  all_goals cases hf

-- The connection task of an exec has only tasks to write, and it has not failed.
structure ServerState.Attended (s : ServerState) (w : Net) : Prop where
  failed : (w.conns i).task = .failed → (w.conns i).sent ≠ []
  task   : s.kind i = .exec → (w.conns i).task ≠ .failed
  sent   : s.kind i = .exec → ∀ m ∈ (w.conns i).sent, m.snd.Assigns

namespace ServerState.Attended

variable {S : Setup} {P : Policy} {s s' : ServerState} {w w' : Net} {i dest about : Nat}
  {msg : Message}
variable {hand : Option (Nat × Message)}

theorem act {a : Act} (h : s.Attended w) (hP : P.WritesTasks) (ha : P.act w a)
    (hs : w.step S a = some w') : s.Attended w' := by
  have ⟨_, _, hm⟩ := Net.step_moved hs
  have hn j :=
    hm.forall_conns (P := fun c c' => c'.sent = c.sent) (fun _ => rfl) Conn.Step.sent_eq j
  have hf {j} (hj : (w'.conns j).task = .failed) :
      (w.conns j).task = .failed ∨ a = .breaks j ∧ (w.conns j).taken < (w.conns j).sent.length := by
    rw [hm.conns] at hj
    by_cases hja : j = a.conn
    case pos => subst hja; exact hm.conn.failed (by simpa using hj)
    case neg => exact .inl (by simpa [hja] using hj)
  constructor
  case failed =>
    intro j hj
    refine hn j ▸ (hf hj).elim h.failed fun ⟨_, hl⟩ => ?_
    exact List.ne_nil_of_length_pos <| Nat.zero_lt_of_lt hl
  case task =>
    intro j hk hj
    rcases hf hj with hj | ⟨rfl, hl⟩
    case inl => exact h.task hk hj
    case inr => exact hP _ _ ha _ (List.getElem?_eq_getElem hl) <| h.sent hk _ (List.getElem_mem hl)
  case sent => exact fun hk => hn _ ▸ h.sent hk

theorem accept {peer : Peer} {view : Nat → Phase} (h : s.Attended w)
    (hs : Config.Sound S ⟨s, hand, w⟩ view) : s.addRemote.Attended (w.accept peer) := by
  have hn {j} (hk : s.addRemote.kind j = .exec) : j ≠ w.size := by
    rintro rfl
    cases hk.symm.trans <| (congrFun kindOf_addRemote _).trans <| kindOf_eq_pending hs.length.le
  have hc {j} (hj : j ≠ w.size) : (w.accept peer).conns j = w.conns j := Net.conns_accept_ne hj
  constructor
  case failed =>
    intro j hf
    by_cases hj : j = w.size
    case pos => subst hj; simp [Conn.fresh] at hf
    case neg => simp only [hc hj] at hf ⊢; exact h.failed hf
  case task => exact fun hk => hc (hn hk) ▸ h.task ((congrFun kindOf_addRemote _).symm.trans hk)
  case sent => exact fun hk => hc (hn hk) ▸ h.sent ((congrFun kindOf_addRemote _).symm.trans hk)

theorem register {secondQueue : Bool} {view : Nat → Phase} (h : s.Attended w)
    (hs : Config.Sound S ⟨s, hand, w⟩ view) (hi : i < s.remotes.length) (hv : view i = .pending) :
    (((s.setConnType i .exec).execStarted secondQueue).makeReady i).Attended w := by
  have hn : (w.conns i).sent = [] := (hs.ledger.pending hv).right.right <| hi.trans_eq hs.length
  have hk {j} (hj : (((s.setConnType i .exec).execStarted secondQueue).makeReady i).kind j = .exec)
      (hn : j ≠ i) : s.kind j = .exec := by
    simpa [kind, ServerState.makeReady, kindOf_setConnType hi, hn] using hj
  constructor
  case failed => exact h.failed
  case task   =>
    intro j hj hf
    by_cases hji : j = i
    case pos => exact h.failed (hji ▸ hf) hn
    case neg => exact h.task (hk hj hji) hf
  case sent   =>
    intro j hj
    by_cases hji : j = i
    case pos => simp [hji, hn]
    case neg => exact h.sent (hk hj hji)

theorem of_kind (h : s.Attended w) (hk : ∀ i, s'.kind i = .exec → s.kind i = .exec) :
    s'.Attended w where
  failed  := h.failed
  task hi := h.task <| hk _ hi
  sent hi := h.sent <| hk _ hi

theorem refile {t : ConnectionType} (h : s.Attended w) (hi : i < s.remotes.length)
    (hr : s'.remotes = (s.setConnType i t).remotes) (ht : t ≠ .exec) : s'.Attended w :=
  h.of_kind fun j hj => kind_of_setConnType hi (by simpa [kind, hr] using hj) ht

theorem put (h : s.Attended w) (hm : s.kind dest = .exec → msg.Assigns) :
    s.Attended (w.put about dest msg) where
  failed hf  := by
    rw [Net.sent_put]
    split
    case isTrue  => simp
    case isFalse => exact h.failed <| Net.task_put.symm.trans hf
  task hk hf := h.task hk <| Net.task_put.symm.trans hf
  sent hk    := by
    rw [Net.sent_put]
    split
    case isTrue hd =>
      subst hd
      simpa [or_imp, forall_and, hm hk] using h.sent hk
    case isFalse   => exact h.sent hk

theorem put_task {accessCode userCode : UInt64} {details : TaskDetails} (h : s.Attended w) :
    s.Attended (w.put about dest (.task accessCode userCode details)) :=
  h.put fun _ => trivial

theorem dismiss {rest : List Nat} (h : s.Attended w) (hi : i < s.remotes.length) :
    (s.dismiss i rest).Attended (w.put i i .pissOff) := by
  have hd : (s.dismiss i rest).kind i = .dead :=
    congrFun (kindOf_setConnType hi) i |>.trans <| Function.update_self ..
  have h : (s.dismiss i rest).Attended w := h.refile hi rfl (by simp)
  exact h.put fun hk => by cases hd.symm.trans hk

theorem forwards (h : s.Attended w) (hf : Forwards P i msg s w s' w') :
    s'.Attended w' := by
  cases hf
  case sent hk _ _ => exact h.put fun hx => by cases hk.symm.trans hx
  case lost hk _ _ => exact h.refile (lt_length hk nofun) rfl (by simp)
  case skipped     => exact h.of_kind fun _ => id

end ServerState.Attended

namespace Config.Sound

variable {S : Setup} {P : Policy} {c c' : Config} {s s' : ServerState} {w w' : Net} {i e : Nat}
variable {hand : Option (Nat × Message)} {view : Nat → Phase} {msg : Message}

theorem tracked (hP : ∀ details, P.Spares (.task 0 0 details)) (hs : c.Sound S view)
    (h : c.server.Tracked c.net) (m : Move S P c c') : c'.server.Tracked c'.net := by
  have ht : (c.server.ledger c.net view).Tracked := h
  cases m
  case act ha =>
    have ⟨_, _, hm⟩ := Net.step_moved ha
    have hn j :=
      hm.forall_conns (P := fun c c' => c'.sent = c.sent) (fun _ => rfl) Conn.Step.sent_eq j
    exact h.of_sent hn
  case accept                   => exact .of_ledger (ht.accept hs.ledger) ledger_accept
  case recv | record            => exact h
  case spawn                    => exact .of_ledger ht ledger_spawned
  case register hi              =>
    have ⟨_, _, hm, _⟩ := hs.wired.hear
    exact .of_ledger (ht.register hs.ledger hm.of_hello.right.left) (ledger_register hi)
  case submit hi _              =>
    have ⟨_, _, hm, _⟩ := hs.wired.hear
    exact .of_ledger (ht.submit hs.ledger hm.of_task.right.left) (ledger_submit hi)
  case output hf                =>
    cases hf
    case sent             => exact .of_ledger ht.put ledger_put
    case lost hk _ _      =>
      exact .of_ledger (ht.lose hk) <| ledger_lose <| ServerState.lt_length hk nofun
    case skipped          => exact h
  case complete hm hf           =>
    have ⟨_, _, hs', _⟩ := hs.wired.hear
    have ⟨_, hk, _⟩ := hs.ledger.busy (hs'.of_result hm.result).right.left
    have hi := hf.length_eq ▸ hf.lt_length
    refine .of_ledger ?_ (@ledger_finish view _ _ _ hi)
    cases hf
    case sent hp _ _ _    => exact ledger_put ▸ ht.finish_put hk hp hm
    case lost hp hj _ _   =>
      exact ledger_lose (ServerState.lt_length hj nofun) ▸ ht.finish_lose hp hj
    case skipped hp hj    => exact ht.finish hk hp hj
  case drop hi hk               => exact .of_ledger (ht.drop <| .inl hk) (ledger_drop hi)
  case dropIdle hk hp           =>
    exact .of_ledger (ht.drop <| .inr hp) (ledger_drop <| ServerState.lt_length hk nofun)
  case dropBusy hk hp _ _       =>
    exact .of_ledger (ht.drop_put hp droppedNotice_terminal)
      (ledger_drop_put <| ServerState.lt_length hk nofun)
  case assign hk he _ hi hj _ _ ho ha =>
    refine .of_ledger (ht.assign hs.ledger hk he ?_) (ledger_assign hi hj (hs.length ▸ hs.bound))
    exact hs.kind_of_queued he <| hP _ _ _ _ ha ho
  case release he hi _ _          => exact .of_ledger (ht.release hs.ledger he) (ledger_release hi)

-- What a client is sent is not sent to an exec.
theorem kind_ne_exec (h : Sound S ⟨s, hand, w⟩ view) (hv : view e = .busy)
    (hp : s.partner e = some i) :
    s.kind i ≠ .exec := by
  have ⟨_, hs, _⟩ := h.serves hv hp
  intro hk
  rcases h.ledger.exec_cases (i := i) hk with ⟨hv, _⟩ | ⟨hv, _⟩
  all_goals simpa [hv] using hs.view

theorem attended (hP : P.WritesTasks) (hs : c.Sound S view) (h : c.server.Attended c.net)
    (m : Move S P c c') : c'.server.Attended c'.net := by
  cases m
  case act ha hw       => exact h.act hP ha hw
  case accept          => exact h.accept hs
  case recv            => exact ⟨h.failed, h.task, h.sent⟩
  case record          => exact h.of_kind fun _ => id
  case spawn           => exact h.of_kind fun _ => by simp [ServerState.kind]
  case register hi     =>
    have ⟨_, _, hm, _⟩ := hs.wired.hear
    exact h.register hs hi hm.of_hello.right.left
  case submit hi _     => exact h.refile hi rfl (by simp)
  case output hf       => exact h.forwards hf
  case complete hf     =>
    exact h.forwards hf |>.of_kind fun _ => (congrFun ServerState.kindOf_setPairedId _).symm.trans
  case drop hi _       => exact h.refile hi rfl (by simp)
  case dropIdle hk _   => exact h.refile (ServerState.lt_length hk nofun) rfl (by simp)
  case dropBusy hk hp _ _ =>
    have hn := hs.kind_ne_exec (hs.busy hk hp) hp
    exact h.put (absurd · hn) |>.refile (ServerState.lt_length hk nofun) rfl (by simp)
  case assign          =>
    refine h.put_task.of_kind fun _ hk => ?_
    simpa [ServerState.kind, ServerState.pair] using hk
  case release hi _ _  => exact h.dismiss hi

end Config.Sound

variable {S : Setup} {P : Policy} {c : Config} {s : ServerState} {w : Net} {view : Nat → Phase}
variable {i e : Nat} {details : TaskDetails}

theorem tracked_start : (Config.start S).server.Tracked (Config.start S).net := by
  intro i hi
  simp [ServerState.ledger, Config.start, Setup.server, ServerState.start, kindOf] at hi

theorem Reach.tracked (h : Reach S P c) (ht : P.Tame)
    (hP : ∀ details, P.Spares (.task 0 0 details)) :
    c.server.Tracked c.net := by
  induction h with
  | start       => exact tracked_start
  | move h m hi => exact have ⟨_, hs⟩ := h.sound ht; hs.tracked hP hi m

theorem attended_start : (Config.start S).server.Attended (Config.start S).net := by
  constructor <;>
    simp [ServerState.kind, Config.start, Setup.server, ServerState.start, kindOf,
      Net.empty, Conn.fresh]

theorem Reach.attended (h : Reach S P c) (ht : P.Tame) (hP : P.WritesTasks) :
    c.server.Attended c.net := by
  induction h with
  | start       => exact attended_start
  | move h m hi => exact have ⟨_, hs⟩ := h.sound ht; hs.attended hP hi m

namespace Config.Sound

-- A client which has submitted its task is filed as one for as long as it is connected.
theorem kind_of_submitted (h : Sound S ⟨s, none, w⟩ view) (hi : i < w.size)
    (hp : (w.conns i).peer = .client details true) (hc : (w.conns i).task.Connected)
    (hv : view i ≠ .pending) : s.kind i = .client := by
  have hr : (w.conns i).role = .client details := by simp [Conn.role, Peer.role, hp]
  have hx : ¬(w.conns i).role.Exec := by simp [hr]
  cases hv : view i
  case pending   => exact absurd hv ‹_›
  case submitted =>
    exact (h.ledger.submitted hv).right.resolve_right fun ho => ho.right hc.opened
  case gone      => exact absurd (h.wired.eq_gone_iff hi |>.mp hv).left hc.not_hungUp
  case idle      => exact absurd (h.ledger.idle hv).left hx
  case busy      => exact absurd (h.ledger.busy hv).left hx
  case released  => exact absurd (h.ledger.released hv).left hx

theorem view_of_received (h : Sound S ⟨s, none, w⟩ view) (hi : i < w.size)
    (hp : (w.conns i).peer = .client details true) (hc : (w.conns i).task.Connected)
    (hf : w.flight i = []) : view i = .submitted := by
  have hl := (h.wired.line hi).flow
  simpa [Net.unheard, hf, Conn.ahead, hc.not_hungUp, hp] using hl

end Config.Sound

-- The places of the task of client `i`.

def ServerState.Queued (s : ServerState) (i : Nat) (details : TaskDetails) : Prop :=
  ∃ prior, ((i, details), prior) ∈ s.taskQueue

-- The exec is connected, or the server is still to receive that it is not.
structure Assignment (s : ServerState) (w : Net) (i : Nat) (details : TaskDetails) (e : Nat) :
    Prop where
  kind   : s.kind e = .exec
  exec   : s.partner i = some e
  client : s.partner e = some i
  told   : (i, .task 0 0 details) ∈ (w.conns e).sent
  alive  : (w.conns e).task.Connected ∨ .dropped ∈ w.flight e

def ServerState.Assigned (s : ServerState) (w : Net) (i : Nat) (details : TaskDetails) : Prop :=
  ∃ e, Assignment s w i details e

structure InOnePlace (s : ServerState) (w : Net) (i : Nat) (details : TaskDetails) : Prop where
  placed       : s.Queued i details ∨ s.Assigned w i details ∨ w.Answered i
  not_assigned : s.Queued i details → ¬s.Assigned w i details
  not_answered : s.Queued i details → ¬w.Answered i
  unanswered   : s.Assigned w i details → ¬w.Answered i

namespace Config.Sound

theorem role_of_queued (h : Sound S ⟨s, none, w⟩ view) (hq : s.Queued i details) :
    (w.conns i).role = .client details :=
  have ⟨_, hq⟩ := hq
  (h.ledger.tasked hq).left

-- An exec which the server has taken to run a task is connected, or the `Dropped` is on its way.
theorem alive_of_busy (h : Sound S ⟨s, none, w⟩ view) (ha : s.Attended w) (hk : s.kind e = .exec)
    (hv : view e = .busy) : (w.conns e).task.Connected ∨ .dropped ∈ w.flight e := by
  have he : e < w.size := h.ledger.lt_size (by simp [ServerState.ledger, hv])
  have hf := ha.task hk
  have hd := (h.wired.line he).dropped_mem (by simp [hv])
  cases ht : (w.conns e).task
  case select | forwarding       => exact .inl trivial
  case ending | noticed | closed => exact .inr <| hd <| ht ▸ trivial
  case failed                    => exact absurd ht hf

theorem placed (h : Sound S ⟨s, none, w⟩ view) (ht : s.Tracked w) (ha : s.Attended w)
    (hr : (w.conns i).role = .client details) (hk : s.kind i = .client) :
    InOnePlace s w i details where
  placed := by
    rcases ht i hk with ⟨d, prior, hq⟩ | ⟨e, he, hie, hei⟩ | ha
    case inl          =>
      cases hr.symm.trans <| h.role_of_queued ⟨_, hq⟩
      exact .inl ⟨prior, hq⟩
    case inr.inl      =>
      have hv := h.busy he hei
      have ⟨_, hs, hr', _⟩ := h.serves hv hei
      cases hr.symm.trans hr'
      have hm := List.mem_of_getLast? hs.last
      exact .inr <| .inl ⟨e, he, hie, hei, hm, h.alive_of_busy ha he hv⟩
    case inr.inr      => exact .inr <| .inr ha
  not_assigned := by
    rintro ⟨_, hq⟩ ⟨_, ha⟩
    cases ha.exec.symm.trans (h.ledger.tasked hq).right.left
  not_answered := by
    rintro ⟨_, hq⟩ ⟨_, hm, _⟩
    have hn : (w.conns i).sent = [] := (h.ledger.tasked hq).right.right.left
    simp [hn] at hm
  unanswered := by
    rintro ⟨_, ha⟩ ⟨_, hm, ht⟩
    have ⟨_, hs, _⟩ := h.serves (h.busy ha.kind ha.client) ha.client
    exact hs.unsolved _ hm ht

end Config.Sound

namespace Cluster

variable {σ : Cluster}

-- The task of a client which the server has received is in one place.
theorem Reaches.inOnePlace
    (h : Reaches S (.and .wellBehaved (.and (.goneSpared Message.Assigns) .taskWritten)) σ)
    (hm : σ.main.resting = some s) (hi : i < σ.net.size)
    (hp : (σ.net.conns i).peer = .client details true) (hc : (σ.net.conns i).task.Connected)
    (hf : σ.net.flight i = []) : InOnePlace s σ.net i details := by
  have hr := h.settled hm
  have ⟨_, hs⟩ := hr.sound Policy.tame_and
  have ht := hr.tracked Policy.tame_and fun _ => .and_right <| .and_left <|
    Policy.goneSpared_spares trivial
  have ha := hr.attended Policy.tame_and <| .and_right <| .and_right Policy.taskWritten_writesTasks
  refine hs.placed ht ha (by simp [Conn.role, Peer.role, hp]) ?_
  exact hs.kind_of_submitted hi hp hc (by simp [hs.view_of_received hi hp hc hf])

theorem inOnePlace_tour :
    ∃ σ s, Reaches .plain (.and .wellBehaved (.and (.goneSpared Message.Assigns) .taskWritten)) σ ∧
      σ.net.size = 3 ∧ σ.main.resting = some s ∧ InOnePlace s σ.net 2 .plain :=
  have ⟨σ, h, hs⟩ := Reaches.of_run
    (f := fun σ => σ.net.size = 3 ∧ (σ.net.conns 2).peer = .client .plain true ∧
      (σ.net.conns 2).task.Connected ∧ σ.net.flight 2 = [] ∧ σ.main.resting.isSome) tour
    (by decide +kernel)
  have ⟨hn, hp, hc, hf, hs⟩ := of_decide_eq_true hs
  have ⟨s, hs⟩ := Option.isSome_iff_exists.mp hs
  ⟨σ, s, h, hn, hs, h.inOnePlace hs (by omega) hp hc hf⟩

-- An idle exec drops its connection. It is sent the next task before its connection task has
-- returned, and so the task is gone.
theorem task_lost :
    ¬∀ S σ s i details, Reaches S .wellBehaved σ → σ.main.resting = some s → i < σ.net.size →
      (σ.net.conns i).peer = .client details true → (σ.net.conns i).task.Connected →
      σ.net.flight i = [] → InOnePlace s σ.net i details := by
  intro h
  have ⟨σ, hr, hs⟩ := Reaches.of_run (S := .plain) (P := .wellBehaved)
    (f := fun σ => σ.net.size = 2 ∧ (σ.net.conns 1).peer = .client .plain true ∧
      (σ.net.conns 1).task.Connected ∧ σ.net.flight 1 = [] ∧ (σ.net.conns 1).sent = [] ∧
      σ.main.resting.any fun s => s.taskQueue.isEmpty ∧ s.partner 1 = some 0 ∧ s.kind 0 = .dead)
    [.accept (.exec false .fresh 0), .check 0, .act (.speaks 0 (Setup.plain.codes.hello false)),
      .recv 0, .clock 0, .finish, .check 0, .act (.ends 0), .recv 0, .clock 0, .finish, .check 0,
      .accept (.client .plain false), .check 0,
        .act (.speaks 1 (Setup.plain.codes.submission .plain)),
      .recv 1, .clock 0, .spawned true, .picked 0, .send, .clock 0, .clock 0, .finish]
        (by decide +kernel)
  have ⟨hn, hp, hc, hf, he, hs⟩ := of_decide_eq_true hs
  have ⟨s, hm, hs⟩ := Option.any_eq_true .. |>.mp hs
  have ⟨hq, hp', hk⟩ := of_decide_eq_true hs
  rcases (h _ _ _ _ _ hr hm (by omega) hp hc hf).placed with ⟨_, ht⟩ | ⟨_, ha⟩ | ⟨_, ha, _⟩
  case inl     => simp [List.isEmpty_iff.mp hq] at ht
  case inr.inl => cases hp'.symm.trans ha.exec; cases hk.symm.trans ha.kind
  case inr.inr => simp [he] at ha

end Cluster

end SprayCC
