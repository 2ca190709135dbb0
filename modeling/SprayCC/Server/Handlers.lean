import SprayCC.Server.State

open Async

namespace SprayCC

-- A send whose failure is passed up by `?`.
def sendOrErr (about dest : Nat) (msg : Message) : Proc Unit := do
  if ← send about dest msg then pure () else .fail (.error "channel closed")

-- A subtraction of `usize`s.
def checkedSub (m n : Nat) (p : Panic) : Proc Nat :=
  if n ≤ m then pure (m - n) else .fail (.panic p)

namespace ServerState

def sendToPairedRemote (s : ServerState) (connId : Nat) (msg : Message) : Proc ServerState := do
  let remote ← s.remote connId
  let otherId ← .get remote.pairedId (.panic .notPaired)
  let other ← s.remote otherId.toNat
  if other.connType = .client then
    if ← send connId otherId.toNat msg then pure s
    else pure (s.setConnType otherId.toNat .dead)
  else pure s

-- Notifies the client whose task the dropped exec was running.
def notifyPaired (s : ServerState) (connId : Nat) : Option UInt32 → Proc Unit
  | some otherId => do
    let _ ← s.remote otherId.toNat
    sendOrErr connId otherId.toNat (.taskFailed "exec dropped connection")
  | none => pure ()

def handleDropped (s : ServerState) (connId : Nat) : Proc ServerState := do
  let remote ← s.remote connId
  if remote.connType = .exec then
    s.notifyPaired connId remote.pairedId
    let running ← checkedSub s.runningExecCount 1 .runningUnderflow
    pure <| { s with runningExecCount := running }.setConnType connId .dead
  else pure (s.setConnType connId .dead)

-- The body of the first loop of `check_queues`, after the two pops.
def assignTask (s : ServerState) (clientId execId : Nat) (task : TaskDetails) :
    Proc ServerState :=
  if clientId = execId then .fail (.panic .sameId) else do
    let client ← s.remote clientId
    if client.pairedId.isSome then .fail (.panic (.clientPaired clientId client.pairedId)) else
      let s := s.setPairedId clientId (some (.ofNat execId))
      let exec ← s.remote execId
      if exec.pairedId.isSome then .fail (.panic (.execPaired execId exec.pairedId)) else
        let s := s.setPairedId execId (some (.ofNat clientId))
        sendOrErr clientId execId (.task 0 0 task)
        pure s

-- The first loop of `check_queues`, by recursion over the queue which each turn pops.
def assignTasks : List Nat → ServerState → Proc ServerState
  | [],             s => pure s
  | execId :: rest, s =>
    if s.taskQueue.isEmpty then pure s else do
      let k ← pick s.taskQueue
      let ((clientId, task), _) ← .get s.taskQueue[k]? (.panic .unwrap)
      let s := { s with taskQueue := s.taskQueue.eraseIdx k, execQueue := rest }
      let s ← s.assignTask clientId execId task
      assignTasks rest s

theorem assignTasks_cons {s : ServerState} {execId : Nat} {rest : List Nat} :
    assignTasks (execId :: rest) s =
      if s.taskQueue.isEmpty then pure s else
        pick s.taskQueue >>= fun k =>
          .get s.taskQueue[k]? (.panic .unwrap) >>= fun ((clientId, task), _) =>
            assignTask { s with taskQueue := s.taskQueue.eraseIdx k, execQueue := rest }
              clientId execId task >>= assignTasks rest :=
  rfl

-- The second loop of `check_queues`.
def releaseExecs : List Nat → ServerState → Proc ServerState
  | [],             s => pure s
  | execId :: rest, s => do
    let _ ← s.remote execId
    let s := { s with execQueue := rest }.setConnType execId .dead
    sendOrErr execId execId .pissOff
    let running ← checkedSub s.runningExecCount 1 .runningUnderflow
    releaseExecs rest { s with runningExecCount := running }

def okToRelease (s : ServerState) : Proc Bool :=
  match s.lastSubmitTime with
  | some lastTaskTime => do
    let now ← now
    pure <| decide (s.userConfig.releaseDelay < (elapsed now lastTaskTime).asSecs)
  | none => pure false

def checkQueues (s : ServerState) : Proc ServerState := do
  let s ← assignTasks s.execQueue s
  if ← s.okToRelease then releaseExecs s.execQueue s else pure s

def pending (s : ServerState) (altQueue : Bool) : Nat :=
  if altQueue then s.secondPendingExecCount else s.pendingExecCount

def execSpawned (s : ServerState) (altQueue : Bool) : ServerState :=
  if altQueue then { s with secondPendingExecCount := s.secondPendingExecCount + 1 }
  else { s with pendingExecCount := s.pendingExecCount + 1 }

-- The condition of the loop in `start_execs_in_queue`.
def needsExec (s : ServerState) (altQueue : Bool) (keepPending : Nat) : Bool :=
  let total := s.runningExecCount + s.pending altQueue + s.pending (!altQueue)
  total < s.taskQueue.length && total < s.userConfig.maxCount && s.pending altQueue < keepPending

-- The loop goes on for as long as processes fail to start, so it has `fuel` for its turns. Every
-- call that returns does so for some `fuel`.
def spawnExecs (altQueue : Bool) (cmd : String) (keepPending : Nat) :
    Nat → ServerState → Proc ServerState
  | 0,        s => if s.needsExec altQueue keepPending then .fail .spinning else pure s
  | fuel + 1, s =>
    if s.needsExec altQueue keepPending then do
      if ← spawn cmd then spawnExecs altQueue cmd keepPending fuel (s.execSpawned altQueue)
      else spawnExecs altQueue cmd keepPending fuel s
    else pure s

def startExecsInQueue (fuel : Nat) (s : ServerState) (altQueue : Bool) (keepPending : Nat) :
    Proc ServerState := do
  let cmd ← if altQueue then .get s.secondStartCmd (.panic .unwrap) else pure s.startCmd
  spawnExecs altQueue cmd keepPending fuel s

def startExecs (fuel : Nat) (s : ServerState) : Proc ServerState :=
  if s.taskQueue.isEmpty then pure s else
    let initNeeded := max s.userConfig.initialCount s.runningExecCount - s.runningExecCount
    let keepPending := max s.userConfig.keepPending initNeeded
    if s.secondStartCmd.isSome then do
      let halfPending := (keepPending + 1) / 2
      let s ← startExecsInQueue fuel s false halfPending
      startExecsInQueue fuel s true halfPending
    else startExecsInQueue fuel s false keepPending

def update (fuel : Nat) (s : ServerState) : Proc ServerState := do
  let s ← startExecs fuel s
  checkQueues s

-- What `exec_is_ready` changes before it updates the queues.
def makeReady (s : ServerState) (connId : Nat) : ServerState :=
  { s with execQueue := s.execQueue ++ [connId] }.setPairedId connId none

def execIsReady (fuel : Nat) (s : ServerState) (connId : Nat) : Proc ServerState := do
  let _ ← s.remote connId
  update fuel (s.makeReady connId)

-- An exec has phoned home, so it is no longer pending in its queue.
def execStarted (s : ServerState) (secondQueue : Bool) : ServerState :=
  let s := { s with runningExecCount := s.runningExecCount + 1 }
  if !secondQueue && 0 < s.pendingExecCount then
    { s with pendingExecCount := s.pendingExecCount - 1 }
  else if secondQueue && 0 < s.secondPendingExecCount then
    { s with secondPendingExecCount := s.secondPendingExecCount - 1 }
  else s

def remoteIsExec (fuel : Nat) (s : ServerState) (connId : Nat) (secondQueue : Bool) :
    Proc ServerState := do
  let _ ← s.remote connId
  execIsReady fuel ((s.setConnType connId .exec).execStarted secondQueue) connId

def priority (s : ServerState) (details : TaskDetails) (targetId : String) : Duration :=
  (s.priorHistory.get targetId).getD (secs 1) + secs (if details.priorityTask then 300 else 0)

-- What `remote_is_client` changes before it updates the queues.
def queueTask (s : ServerState) (connId : Nat) (details : TaskDetails) (prior : Duration)
    (now : SystemTime) : ServerState :=
  let s := s.setConnType connId .client
  { s with
    taskQueue      := pushEntry s.taskQueue (connId, details) prior
    lastSubmitTime := some now }

def remoteIsClient (fuel : Nat) (s : ServerState) (connId : Nat) (details : TaskDetails) :
    Proc ServerState := do
  let targetId ← .get details.getTargetId (.panic .index)
  let _ ← s.remote connId
  let now ← now
  update fuel (s.queueTask connId details (s.priority details targetId) now)

-- The numbers of the line which is printed, if one is printed.
structure Status where
  finished  : Nat
  submitted : Nat
  running   : Nat
  execs     : Nat
  perSecond : Nat

def reportStatus (s : ServerState) (reportingPeriod : Nat) : Proc (Option Status) := do
  let unfinished ← checkedSub s.submitCount s.finishCount .statusUnderflow
  let running ← checkedSub unfinished s.taskQueue.length .statusUnderflow
  if 0 < running || 0 < s.runningExecCount || 0 < s.bytesThisPeriod then
    pure <| some ⟨s.finishCount, s.submitCount, running, s.runningExecCount,
      s.bytesThisPeriod / reportingPeriod⟩
  else pure none

def countBytes (s : ServerState) (size : Nat) : ServerState :=
  { s with totalBytes := s.totalBytes + size, bytesThisPeriod := s.bytesThisPeriod + size }

def countFinished (s : ServerState) : ServerState :=
  { s with finishCount := s.finishCount + 1 }

-- The sums of the times are exact, where those of the source panic when they overflow.
def countTimes (s : ServerState) (runTime sendTime : Duration) : ServerState :=
  { s with
    totalRunTime  := s.totalRunTime + runTime
    totalSendTime := s.totalSendTime + sendTime
    peakSendTime  := max s.peakSendTime sendTime }

end ServerState

open ServerState

def handleMsg (fuel : Nat) (s : ServerState) (connId : Nat) (msg : Message) : Proc ServerState :=
  match msg with
  | .yourObedientServant accessCode _ =>
    remoteIsExec fuel s connId (accessCode &&& 1 ≠ 0)
  | .task _ _ details =>
    remoteIsClient fuel { s with submitCount := s.submitCount + 1 } connId details
  | .taskOutput outputType content =>
    (s.countBytes content.length).sendToPairedRemote connId (.taskOutput outputType content)
  | .taskDone exitCode targetId runTime sendTime => do
    let s ← if exitCode = some 0 then s.recordElapsed targetId runTime <$> now else pure s
    let s ← s.sendToPairedRemote connId (.taskDone exitCode targetId runTime sendTime)
    let s ← execIsReady fuel s.countFinished connId
    pure <| s.countTimes runTime sendTime
  | .taskFailed errorMessage => do
    let s ← s.sendToPairedRemote connId (.taskFailed errorMessage)
    execIsReady fuel s.countFinished connId
  | .cancelTask => .fail (.panic .cancelTask)
  | .dropped    => s.handleDropped connId
  | .pissOff    => .fail (.panic .pissOff)

-- What follows on a `TaskDone` once its run time has been written down.
def taskIsDone (fuel : Nat) (s : ServerState) (connId : Nat) (msg : Message)
    (runTime sendTime : Duration) : Proc ServerState := do
  let s ← s.sendToPairedRemote connId msg
  let s ← execIsReady fuel s.countFinished connId
  pure <| s.countTimes runTime sendTime

theorem handleMsg_taskDone {fuel connId : Nat} {s : ServerState} {exitCode : Option Int32}
    {targetId : String} {runTime sendTime : Duration} :
    let msg := Message.taskDone exitCode targetId runTime sendTime
    handleMsg fuel s connId msg =
      if exitCode = some 0 then
        now >>= fun t =>
          taskIsDone fuel (s.recordElapsed targetId runTime t) connId msg runTime sendTime
      else taskIsDone fuel s connId msg runTime sendTime := by
  unfold handleMsg
  dsimp only
  split <;> rfl

-- What wakes up the loop of `run`, apart from new connections.
inductive Event
  | inbound (connId : Nat) (msg : Message)
  | watchdog

-- The arms of the loop of `run`, up to the test for shutdown.
def onEvent (fuel : Nat) (s : ServerState) : Event → Proc ServerState
  | .inbound connId msg => do
    let s ← handleMsg fuel s connId msg
    s.activityOccurred <$> now
  | .watchdog => do
    let s ← update fuel s
    let _ ← s.reportStatus 5
    pure { s with bytesThisPeriod := 0 }

end SprayCC
