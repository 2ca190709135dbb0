import Mathlib.Tactic.Common

namespace SprayCC

structure ExecConfig where
  initialCount      : Nat
  maxCount          : Nat
  keepPending       : Nat
  releaseDelay      : Nat
  idleShutdownAfter : Nat
  startCmd          : String
  altStartCmd       : Option String

def ExecConfig.default : ExecConfig where
  initialCount      := 5
  maxCount          := 1000
  keepPending       := 5
  releaseDelay      := 30
  idleShutdownAfter := 60
  startCmd          := "spraycc"
  altStartCmd       := none

end SprayCC
