import SprayCC.Cluster.Refinement
import SprayCC.Cluster.Session

open Async Program

-- A remote which has not shown the right codes has no session with the server.

namespace SprayCC

-- The peer has not said anything which opens a session.
def Peer.Stranger (codes : Codes) : Peer → Prop
  | client _ submitted => submitted = false
  | exec _ stage _     => stage = .fresh
  | rogue said         => ∀ m ∈ said, ¬codes.Admits m

def Net.Stranger (codes : Codes) (w : Net) (k : Nat) : Prop :=
  k < w.size → (w.conns k).peer.Stranger codes

namespace Conn.Step

variable {codes : Codes} {c c' : Conn} {a : Act} {ms : List Message}

theorem stranger_of (h : c.Step codes a ms c') (hs : c'.peer.Stranger codes) :
    c.peer.Stranger codes := by
  cases h
  case speaks hs' _ht =>
    cases hs'
    case task | hello | result => cases hs
    case output                => exact hs
    case rogue hp              => exact hp ▸ fun m hm => hs m (by simp [hm])
  case starts | leaves => cases hs
  all_goals exact hs

theorem not_opens (h : c.Step codes a ms c') (hs : c'.peer.Stranger codes) :
    ∀ m ∈ ms, ¬m.Opens := by
  cases h
  case speaks hs' _ht =>
    cases hs'
    case task | hello | result => cases hs
    case output hp _ _         => simp [Peer.Stranger, hp] at hs
    case rogue hp              => simpa using Codes.not_opens_forwards <| hs _ (by simp)
  case ends => simp [Message.Opens]
  all_goals nofun

end Conn.Step

-- The server has no session with remote `k`.
structure ServerState.Unopened (s : ServerState) (k : Nat) : Prop where
  exec    : s.kind k ≠ .exec
  client  : s.kind k ≠ .client
  partner : s.partner k = none
  execs   : k ∉ s.execQueue
  tasks   : ∀ t ∈ s.taskQueue, t.fst.fst ≠ k

namespace ServerState.Unopened

variable {s s' : ServerState} {i j k n : Nat} {rest : List Nat}

theorem start {S : Setup} : S.server.Unopened k := by
  constructor <;>
    simp [Setup.server, ServerState.start, kind, ServerState.partner, kindOf, partnerOf]

theorem frame (h : s.Unopened k) (hk : s'.kind k = s.kind k ∨ s'.kind k = .dead)
    (hp : s'.partner k = s.partner k) (he : k ∈ s'.execQueue → k ∈ s.execQueue)
    (ht : ∀ t ∈ s'.taskQueue, t ∈ s.taskQueue ∨ t.fst.fst ≠ k) : s'.Unopened k where
  exec    := hk.elim (· ▸ h.exec) (by simp [·])
  client  := hk.elim (· ▸ h.client) (by simp [·])
  partner := hp.trans h.partner
  execs   := mt he h.execs
  tasks   := fun t hm => (ht t hm).elim (h.tasks t) id

theorem unchanged (h : s.Unopened k) (hr : s'.remotes = s.remotes) (he : s'.execQueue = s.execQueue)
    (ht : s'.taskQueue = s.taskQueue) : s'.Unopened k := by
  refine h.frame (.inl ?_) ?_ (he ▸ id) (ht ▸ fun _ => .inl) <;>
    simp [kind, ServerState.partner, hr]

theorem addRemote (h : s.Unopened k) : s.addRemote.Unopened k :=
  h.frame (.inl <| congrFun kindOf_addRemote k) (congrFun partnerOf_addRemote k) id fun _ => .inl

-- The server changes its mind about a remote, possibly this one.
theorem refile {t : ConnectionType} (h : s.Unopened k) (hi : i < s.remotes.length)
    (hk : k ≠ i ∨ t = .dead) : (s.setConnType i t).Unopened k := by
  refine h.frame ?_ (congrFun partnerOf_setConnType k) id fun _ => .inl
  by_cases hki : k = i
  case pos => simp_all [kind, kindOf_setConnType hi]
  case neg => simp [kind, kindOf_setConnType hi, hki]

theorem setPairedId {p : Option UInt32} (h : s.Unopened k) (hi : i < s.remotes.length)
    (hk : k ≠ i) :
    (s.setPairedId i p).Unopened k := by
  refine h.frame (.inl <| congrFun kindOf_setPairedId k) ?_ id fun _ => .inl
  simp [ServerState.partner, partnerOf_setPairedId hi, hk]

theorem makeReady (h : s.Unopened k) (hi : i < s.remotes.length) (hk : k ≠ i) :
    (s.makeReady i).Unopened k := by
  refine setPairedId ?_ hi hk
  exact h.frame (.inl rfl) rfl (by simp [hk]) fun _ => .inl

theorem queueTask {details : TaskDetails} {prior : Duration} {now : SystemTime} (h : s.Unopened k)
    (hi : i < s.remotes.length) (hk : k ≠ i) : (s.queueTask i details prior now).Unopened k := by
  refine h.refile (t := .client) hi (.inl hk) |>.frame (.inl rfl) rfl id fun t ht => ?_
  simp only [ServerState.queueTask, pushEntry] at ht
  split at ht
  case isTrue  =>
    obtain ⟨t', ht', he⟩ := List.mem_map.mp ht
    split at he
    case isTrue  => exact .inr <| by simp [← he, hk.symm]
    case isFalse => exact .inl <| he ▸ ht'
  case isFalse =>
    rcases List.mem_append.mp ht with ht | ht
    case inl => exact .inl ht
    case inr => exact .inr <| by simp [List.mem_singleton.mp ht, hk.symm]

theorem pop (h : s.Unopened k) (he : s.execQueue = i :: rest) : (s.pop n rest).Unopened k :=
  h.frame (.inl rfl) rfl (he ▸ .tail _) fun _ ht => .inl <| List.mem_of_mem_eraseIdx ht

theorem pair (h : s.Unopened k) (hi : i < s.remotes.length) (hj : j < s.remotes.length)
    (hki : k ≠ i)
    (hkj : k ≠ j) : (s.pair i j).Unopened k :=
  h.setPairedId hi hki |>.setPairedId (by simpa) hkj

theorem ne_of_queued (h : s.Unopened k) (he : s.execQueue = i :: rest) : k ≠ i := by
  rintro rfl
  exact h.execs (he ▸ .head _)

theorem dismiss (h : s.Unopened k) (he : s.execQueue = i :: rest) (hi : i < s.remotes.length) :
    (s.dismiss i rest).Unopened k := by
  have h := h.refile (t := .dead) hi (.inr rfl)
  exact h.frame (.inl rfl) rfl (fun hk => he ▸ .tail _ hk) fun _ => .inl

theorem forwards {P : Policy} {msg : Message} {w w' : Net} (h : s.Unopened k)
    (hf : Forwards P i msg s w s' w') : s'.Unopened k := by
  cases hf
  case sent | skipped => exact h
  case lost hk _ _    => exact h.refile (lt_length hk nofun) (.inr rfl)

theorem ne_of_forwards {P : Policy} {msg : Message} {w w' : Net} (h : s.Unopened k)
    (hf : Forwards P i msg s w s' w') : k ≠ i := by
  rintro rfl
  exact hf.partner_ne_none h.partner

end ServerState.Unopened

-- None of the messages of remote `k` opens a session.
def Net.Mute (w : Net) (hand : Option (Nat × Message)) (k : Nat) : Prop :=
  ∀ m ∈ w.unheard hand k, ¬m.Opens

namespace Net.Mute

variable {S : Setup} {w w' : Net} {i k : Nat} {hand : Option (Nat × Message)} {msg : Message}

theorem act {a : Act} (h : w.Mute hand k) (hk : w'.Stranger S.codes k) (hs : w.step S a = some w') :
    w'.Mute hand k := by
  have ⟨ms, c, hm⟩ := Net.step_moved hs
  intro m hu
  rw [hm.unheard] at hu
  rcases List.mem_append.mp hu with hu | hu
  case inl => exact h m hu
  case inr =>
    by_cases hka : k = a.conn
    case neg => simp [hka] at hu
    case pos =>
      subst hka
      have hc := hk (hm.size ▸ hm.present)
      rw [hm.conns, Function.update_self] at hc
      exact hm.conn.not_opens hc m (by simpa using hu)

theorem accept {peer : Peer} (h : w.Mute none k) : (w.accept peer).Mute none k := by
  intro m hm
  by_cases hk : k = w.size
  case neg => exact h m <| by simpa [Net.unheard, Net.flight, Net.accept, Net.set, hk] using hm
  case pos =>
    subst hk
    simp only [Net.unheard, Net.flight, Net.accept, Net.set, Function.update_self, Conn.fresh,
      ConnTask.held, List.append_nil] at hm
    simp only [Net.Mute, Net.unheard, Net.flight, ← List.append_assoc] at h
    exact h m <| List.mem_append_left _ hm

theorem recv {rest : List (Nat × Message)} (h : w.Mute none k) (hi : w.inbound = (i, msg) :: rest) :
    Mute { w with inbound := rest } (some (i, msg)) k :=
  fun m hm => h m <| Net.unheard_recv hi ▸ hm

theorem put {about dest : Nat} (h : w.Mute hand k) : (w.put about dest msg).Mute hand k :=
  fun m hm => h m <| Net.unheard_put ▸ hm

-- The server handles a message, and what is left of the messages is still unheard.
theorem hear (h : w.Mute (some (i, msg)) k) : w.Mute none k := by
  by_cases hi : k = i
  case neg => exact fun m hm => h m <| Net.unheard_ne hi ▸ hm
  case pos =>
    subst hi
    exact fun m hm => h m <| Net.unheard_hand ▸ .tail _ hm

theorem ne_of_opens (h : w.Mute (some (i, msg)) k) (hm : msg.Opens) : k ≠ i := by
  rintro rfl
  exact h msg (Net.unheard_hand ▸ .head _) hm

theorem forwards {P : Policy} {s s' : ServerState} (h : w.Mute hand k)
    (hf : Forwards P i msg s w s' w') :
    w'.Mute hand k := by
  cases hf
  case sent           => exact h.put
  case lost | skipped => exact h

end Net.Mute

structure Config.Deaf (c : Config) (k : Nat) : Prop where
  server : c.server.Unopened k
  net    : c.net.Mute c.hand k

namespace Config.Deaf

variable {S : Setup} {P : Policy} {c c' : Config} {k : Nat}

theorem move (h : c.Deaf k) (hk : c'.net.Stranger S.codes k) (m : Move S P c c') : c'.Deaf k := by
  have ⟨hs, hw⟩ := h
  cases m
  case act ha        => exact ⟨hs, hw.act hk ha⟩
  case accept        => exact ⟨hs.addRemote, hw.accept⟩
  case recv hi _     => exact ⟨hs, hw.recv hi⟩
  case record        => exact ⟨hs.unchanged rfl rfl rfl, hw⟩
  case spawn         => exact ⟨hs.unchanged (by simp) (by simp) (by simp), hw⟩
  case register hi       =>
    have hn := hw.ne_of_opens trivial
    have hs := hs.refile (t := .exec) hi (.inl hn)
    exact ⟨.makeReady (hs.unchanged (by simp) (by simp) (by simp)) (by simpa) hn, hw.hear⟩
  case submit hi _       =>
    exact ⟨.queueTask (hs.unchanged rfl rfl rfl) hi <| hw.ne_of_opens trivial, hw.hear⟩
  case output hf         => exact ⟨hs.forwards hf, (hw.forwards hf).hear⟩
  case complete hf       =>
    have hn := hs.ne_of_forwards hf
    have hi := hf.length_eq ▸ hf.lt_length
    exact ⟨.makeReady (hs.forwards hf |>.unchanged rfl rfl rfl) hi hn, (hw.forwards hf).hear⟩
  case drop hi _         => exact ⟨hs.refile hi (.inr rfl), hw.hear⟩
  case dropIdle hi _     =>
    exact ⟨hs.refile (ServerState.lt_length hi nofun) (.inr rfl) |>.unchanged rfl rfl rfl, hw.hear⟩
  case dropBusy hi _ _ _ =>
    have hs := hs.refile (ServerState.lt_length hi nofun) (.inr rfl)
    exact ⟨hs.unchanged rfl rfl rfl, hw.hear.put⟩
  case assign ht he _ hi hj _ _ _ _ =>
    have hn := hs.tasks _ <| List.mem_of_getElem? ht
    exact ⟨hs.pop he |>.pair hi hj hn.symm <| hs.ne_of_queued he, hw.put⟩
  case release he hi _ _ => exact ⟨hs.dismiss he hi, hw.put⟩

end Config.Deaf

theorem Net.Stranger.of_move {S : Setup} {P : Policy} {c c' : Config} {k : Nat}
    (h : c'.net.Stranger S.codes k) (m : Move S P c c') : c.net.Stranger S.codes k := by
  intro hk
  cases m
  case act ha      =>
    have ⟨_, _, hm⟩ := Net.step_moved ha
    have h := h (hm.size ▸ hk)
    exact hm.forall_conns (P := fun c c' => c'.peer.Stranger S.codes → c.peer.Stranger S.codes)
      (fun _ => id) Conn.Step.stranger_of k h
  case accept w _ _ _ _ =>
    have h := h (Nat.lt_succ_of_lt hk)
    have hn : k ≠ w.size := Nat.ne_of_lt hk
    exact Net.conns_accept_ne hn ▸ h
  case output hf   => exact hf.peer_eq ▸ h (hf.size_eq ▸ hk)
  case complete hf => exact hf.peer_eq ▸ h (hf.size_eq ▸ hk)
  case dropBusy | assign | release => exact Net.peer_put ▸ h hk
  all_goals exact h hk

theorem Reach.length {S : Setup} {P : Policy} {c : Config} (h : Reach S P c) :
    c.server.remotes.length = c.net.size := by
  induction h with
  | start => rfl
  | move hr m hi =>
    cases m
    case act ha      => exact hi.trans (have ⟨_, _, hm⟩ := Net.step_moved ha; hm.size.symm)
    case output hf   => exact hf.length_eq.trans <| hi.trans hf.size_eq.symm
    case complete hf =>
      simpa [ServerState.makeReady, ServerState.countFinished] using
        hf.length_eq.trans <| hi.trans hf.size_eq.symm
    case accept      => simpa [Net.accept] using hi
    case spawn       => simpa using hi
    case recv | record => exact hi
    all_goals
      simpa [ServerState.makeReady, ServerState.queueTask, ServerState.setConnType,
        ServerState.bury,
        ServerState.pair, ServerState.dismiss] using hi

-- The server does not hear of a stranger's session.
theorem Reach.deaf {S : Setup} {P : Policy} {c : Config} {k : Nat} (h : Reach S P c)
    (hk : c.net.Stranger S.codes k) : c.Deaf k := by
  induction h with
  | start         => exact ⟨.start, fun _ hm => nomatch hm⟩
  | move hr m hi  => exact (hi <| hk.of_move m).move hk m

end SprayCC
