import Mathlib.Logic.Function.Basic
import SprayCC.Server.Handlers

open Async

-- The remotes of a server as functions of their IDs, and what the server's functions do to them.

namespace SprayCC

theorem countP_modify {α : Type} {l : List α} {i : Nat} (p : α → Bool) (f : α → α)
    (h : i < l.length) :
    (l.modify i f).countP p + (if p l[i] then 1 else 0) =
      l.countP p + (if p (f l[i]) then 1 else 0) := by
  have hp := List.boole_getElem_le_countP (p := p) h
  rw [List.modify_eq_set_getElem?, List.getElem?_eq_getElem h]
  simp only [Option.map_eq_map, Option.map_some, Option.getD_some, List.countP_set h]
  omega

def kindOf (remotes : List Remote) (i : Nat) : ConnectionType :=
  remotes[i]?.map Remote.connType |>.getD .pending

def partnerOf (remotes : List Remote) (i : Nat) : Option Nat :=
  remotes[i]?.bind Remote.pairedId |>.map UInt32.toNat

def execsIn (remotes : List Remote) : Nat :=
  remotes.countP (·.connType = .exec)

theorem kindOf_eq {remotes : List Remote} {i : Nat} {r : Remote} (h : remotes[i]? = some r) :
    kindOf remotes i = r.connType := by
  simp [kindOf, h]

theorem partnerOf_eq {remotes : List Remote} {i : Nat} {r : Remote} (h : remotes[i]? = some r) :
    partnerOf remotes i = r.pairedId.map UInt32.toNat := by
  simp [partnerOf, h]

theorem isSome_pairedId_iff {remotes : List Remote} {i : Nat} {r : Remote}
    (h : remotes[i]? = some r) : r.pairedId.isSome ↔ partnerOf remotes i ≠ none := by
  simp [partnerOf_eq h, Option.isSome_iff_ne_none]

theorem kindOf_eq_pending {remotes : List Remote} {i : Nat} (h : remotes.length ≤ i) :
    kindOf remotes i = .pending := by
  simp [kindOf, h]

theorem partnerOf_eq_none {remotes : List Remote} {i : Nat} (h : remotes.length ≤ i) :
    partnerOf remotes i = none := by
  simp [partnerOf, h]

theorem lt_length_of_kindOf {remotes : List Remote} {i : Nat} (h : kindOf remotes i ≠ .pending) :
    i < remotes.length :=
  not_le.mp <| mt kindOf_eq_pending h

theorem lt_length_of_partnerOf {remotes : List Remote} {i j : Nat}
    (h : partnerOf remotes i = some j) : i < remotes.length :=
  not_le.mp fun hl => by simp [partnerOf_eq_none hl] at h

namespace ServerState

abbrev kind (s : ServerState) (i : Nat) : ConnectionType :=
  kindOf s.remotes i

abbrev partner (s : ServerState) (i : Nat) : Option Nat :=
  partnerOf s.remotes i

variable {s : ServerState} {i : Nat}

theorem lt_length {t : ConnectionType} (h : s.kind i = t) (ht : t ≠ .pending) :
    i < s.remotes.length :=
  lt_length_of_kindOf <| Eq.trans_ne h ht

section SetConnType

variable {t : ConnectionType}

theorem kindOf_setConnType (h : i < s.remotes.length) :
    kindOf (s.setConnType i t).remotes = Function.update (kindOf s.remotes) i t := by
  ext1 j
  by_cases hj : j = i
  case pos => subst hj; simp [kindOf, setConnType, h]
  case neg => simp [kindOf, setConnType, Ne.symm hj, hj]

theorem kind_of_setConnType {j : Nat} {k : ConnectionType} (hi : i < s.remotes.length)
    (h : (s.setConnType i t).kind j = k) (ht : t ≠ k) : s.kind j = k := by
  by_cases hj : j = i
  case pos => exact absurd (by simpa [kind, kindOf_setConnType hi, hj] using h) ht
  case neg => simpa [kind, kindOf_setConnType hi, hj] using h

@[simp]
theorem partnerOf_setConnType : partnerOf (s.setConnType i t).remotes = partnerOf s.remotes := by
  ext1 j
  by_cases hj : i = j <;> cases hr : s.remotes[j]? <;> simp [partnerOf, setConnType, hj, hr]

theorem execsIn_setConnType (h : i < s.remotes.length) :
    execsIn (s.setConnType i t).remotes + (if s.kind i = .exec then 1 else 0) =
      execsIn s.remotes + (if t = .exec then 1 else 0) := by
  simpa [execsIn, setConnType, kindOf, h] using
    countP_modify (fun r : Remote => decide (r.connType = .exec))
      (fun r => { r with connType := t }) h

@[simp]
theorem length_setConnType : (s.setConnType i t).remotes.length = s.remotes.length := by
  simp [setConnType]

@[simp]
theorem taskQueue_setConnType : (s.setConnType i t).taskQueue = s.taskQueue :=
  rfl

@[simp]
theorem execQueue_setConnType : (s.setConnType i t).execQueue = s.execQueue :=
  rfl

@[simp]
theorem running_setConnType : (s.setConnType i t).runningExecCount = s.runningExecCount :=
  rfl

end SetConnType

section SetPairedId

variable {p : Option UInt32}

@[simp]
theorem kindOf_setPairedId : kindOf (s.setPairedId i p).remotes = kindOf s.remotes := by
  ext1 j
  by_cases hj : i = j <;> cases hr : s.remotes[j]? <;> simp [kindOf, setPairedId, hj, hr]

theorem partnerOf_setPairedId (h : i < s.remotes.length) :
    partnerOf (s.setPairedId i p).remotes =
      Function.update (partnerOf s.remotes) i (p.map UInt32.toNat) := by
  ext1 j
  by_cases hj : j = i
  case pos => subst hj; simp [partnerOf, setPairedId, h]
  case neg => simp [partnerOf, setPairedId, Ne.symm hj, hj]

@[simp]
theorem execsIn_setPairedId : execsIn (s.setPairedId i p).remotes = execsIn s.remotes := by
  by_cases h : i < s.remotes.length
  case pos =>
    simpa [execsIn, setPairedId] using
      countP_modify (fun r : Remote => decide (r.connType = .exec))
        (fun r => { r with pairedId := p }) h
  case neg => simp [execsIn, setPairedId, List.modify_eq_self (Nat.le_of_not_lt h)]

@[simp]
theorem length_setPairedId : (s.setPairedId i p).remotes.length = s.remotes.length := by
  simp [setPairedId]

@[simp]
theorem taskQueue_setPairedId : (s.setPairedId i p).taskQueue = s.taskQueue :=
  rfl

@[simp]
theorem execQueue_setPairedId : (s.setPairedId i p).execQueue = s.execQueue :=
  rfl

@[simp]
theorem running_setPairedId : (s.setPairedId i p).runningExecCount = s.runningExecCount :=
  rfl

end SetPairedId

section AddRemote

theorem getElem?_addRemote :
    s.addRemote.remotes[i]? =
      if i = s.remotes.length then some ⟨.pending, none⟩ else s.remotes[i]? := by
  rcases lt_trichotomy i s.remotes.length with h | h | h
  · simp [addRemote, List.getElem?_append, h, h.ne]
  · simp [addRemote, h]
  · simp [addRemote, List.getElem?_append, h.ne', Nat.not_lt.mpr h.le, Nat.sub_ne_zero_of_lt h]

@[simp]
theorem kindOf_addRemote : kindOf s.addRemote.remotes = kindOf s.remotes := by
  ext1 i
  simp only [kindOf, getElem?_addRemote]
  split <;> simp_all

@[simp]
theorem partnerOf_addRemote : partnerOf s.addRemote.remotes = partnerOf s.remotes := by
  ext1 i
  simp only [partnerOf, getElem?_addRemote]
  split <;> simp_all

@[simp]
theorem execsIn_addRemote : execsIn s.addRemote.remotes = execsIn s.remotes := by
  simp [execsIn, addRemote]

@[simp]
theorem length_addRemote : s.addRemote.remotes.length = s.remotes.length + 1 := by
  simp [addRemote]

@[simp]
theorem execQueue_addRemote : s.addRemote.execQueue = s.execQueue :=
  rfl

end AddRemote

-- The changes of the loops of `check_queues` and of a dropped exec, each as a whole.

def pop (s : ServerState) (k : Nat) (rest : List Nat) : ServerState :=
  { s with taskQueue := s.taskQueue.eraseIdx k, execQueue := rest }

def pair (s : ServerState) (clientId execId : Nat) : ServerState :=
  (s.setPairedId clientId (some (.ofNat execId))).setPairedId execId (some (.ofNat clientId))

def dismiss (s : ServerState) (execId : Nat) (rest : List Nat) : ServerState :=
  { { s with execQueue := rest }.setConnType execId .dead with
    runningExecCount := s.runningExecCount - 1 }

def bury (s : ServerState) (execId : Nat) : ServerState :=
  { s with runningExecCount := s.runningExecCount - 1 }.setConnType execId .dead

@[simp]
theorem remotes_pop {k : Nat} {rest : List Nat} : (s.pop k rest).remotes = s.remotes :=
  rfl

theorem getElem?_setPairedId {p : Option UInt32} {j : Nat} (h : i ≠ j) :
    (s.setPairedId i p).remotes[j]? = s.remotes[j]? := by
  simp [setPairedId, h]

-- The program touches nothing but the remotes of a server.
abbrev OnlyRemotes (s : ServerState) (p : Proc ServerState) : Prop :=
  p.Always (fun s' => ∃ remotes, s' = { s with remotes }) fun _ => True

theorem sendToPairedRemote_onlyRemotes {connId : Nat} {msg : Message} :
    s.OnlyRemotes (s.sendToPairedRemote connId msg) := by
  apply Program.Always.of_get fun _ => trivial
  intro remote _
  apply Program.Always.of_get fun _ => trivial
  intro otherId _
  apply Program.Always.of_get fun _ => trivial
  intro other _
  split
  case isTrue  => intro ok; cases ok <;> exact ⟨_, rfl⟩
  case isFalse => exact ⟨_, rfl⟩

-- A task is not assigned, which is a panic, or it is sent to the exec.
theorem assignTask_cases {clientId execId : Nat} {task : TaskDetails} :
    (∃ p, s.assignTask clientId execId task = .fail (.panic p)) ∨
      s.assignTask clientId execId task = sendOrErr clientId execId (.task 0 0 task) >>=
        fun _ => pure (s.pair clientId execId) := by
  unfold assignTask remote
  split
  case isTrue => exact .inl ⟨_, rfl⟩
  cases s.remotes[clientId]?
  case none => exact .inl ⟨_, rfl⟩
  rw [Program.get_some_bind]
  split
  case isTrue => exact .inl ⟨_, rfl⟩
  dsimp only
  cases (s.setPairedId clientId (some (.ofNat execId))).remotes[execId]?
  case none => exact .inl ⟨_, rfl⟩
  rw [Program.get_some_bind]
  split
  case isTrue  => exact .inl ⟨_, rfl⟩
  case isFalse => exact .inr rfl

theorem assignTask_onlyRemotes {clientId execId : Nat} {task : TaskDetails} :
    s.OnlyRemotes (s.assignTask clientId execId task) := by
  rcases s.assignTask_cases with ⟨_, h⟩ | h <;> rw [h]
  case inl => trivial
  case inr => intro ok; cases ok <;> [trivial; exact ⟨_, rfl⟩]

section ExecStarted

variable {secondQueue : Bool}

-- Only the counts of the execs change.
theorem execStarted_eq :
    s.execStarted secondQueue =
      { s with
        runningExecCount       := s.runningExecCount + 1
        pendingExecCount       := (s.execStarted secondQueue).pendingExecCount
        secondPendingExecCount := (s.execStarted secondQueue).secondPendingExecCount } := by
  unfold execStarted
  dsimp only
  split <;> [rfl; split <;> rfl]

@[simp]
theorem remotes_execStarted : (s.execStarted secondQueue).remotes = s.remotes := by
  rw [execStarted_eq]

@[simp]
theorem taskQueue_execStarted : (s.execStarted secondQueue).taskQueue = s.taskQueue := by
  rw [execStarted_eq]

@[simp]
theorem execQueue_execStarted : (s.execStarted secondQueue).execQueue = s.execQueue := by
  rw [execStarted_eq]

@[simp]
theorem running_execStarted :
    (s.execStarted secondQueue).runningExecCount = s.runningExecCount + 1 := by
  rw [execStarted_eq]

@[simp]
theorem userConfig_execStarted : (s.execStarted secondQueue).userConfig = s.userConfig := by
  rw [execStarted_eq]

@[simp]
theorem startCmd_execStarted : (s.execStarted secondQueue).startCmd = s.startCmd := by
  rw [execStarted_eq]

@[simp]
theorem secondStartCmd_execStarted :
    (s.execStarted secondQueue).secondStartCmd = s.secondStartCmd := by
  rw [execStarted_eq]

@[simp]
theorem priorHistory_execStarted : (s.execStarted secondQueue).priorHistory = s.priorHistory := by
  rw [execStarted_eq]

@[simp]
theorem inTheMaking_execStarted : (s.execStarted secondQueue).inTheMaking = s.inTheMaking := by
  rw [execStarted_eq]

end ExecStarted

section ExecSpawned

variable {altQueue : Bool}

theorem execSpawned_eq :
    s.execSpawned altQueue =
      { s with
        pendingExecCount       := (s.execSpawned altQueue).pendingExecCount
        secondPendingExecCount := (s.execSpawned altQueue).secondPendingExecCount } := by
  unfold execSpawned
  split <;> rfl

@[simp]
theorem remotes_execSpawned : (s.execSpawned altQueue).remotes = s.remotes := by
  rw [execSpawned_eq]

@[simp]
theorem taskQueue_execSpawned : (s.execSpawned altQueue).taskQueue = s.taskQueue := by
  rw [execSpawned_eq]

@[simp]
theorem execQueue_execSpawned : (s.execSpawned altQueue).execQueue = s.execQueue := by
  rw [execSpawned_eq]

@[simp]
theorem running_execSpawned : (s.execSpawned altQueue).runningExecCount = s.runningExecCount := by
  rw [execSpawned_eq]

@[simp]
theorem priorHistory_execSpawned : (s.execSpawned altQueue).priorHistory = s.priorHistory := by
  rw [execSpawned_eq]

@[simp]
theorem inTheMaking_execSpawned : (s.execSpawned altQueue).inTheMaking = s.inTheMaking := by
  rw [execSpawned_eq]

end ExecSpawned

end ServerState
end SprayCC
