import SprayCC.Ipc.Message

namespace SprayCC

structure History where
  version : UInt32
  history : StringMap (Duration × SystemTime)

namespace History

instance : DecidableEq History := fun h h' =>
  decidable_of_iff (h.version = h'.version ∧ h.history.toList = h'.history.toList) <| by
    cases h; cases h'
    simp [Std.ExtTreeMap.toList_inj]

def default : History where
  version := 1
  history := ∅

def isEmpty (h : History) : Bool :=
  h.history.isEmpty

def get (h : History) (target : String) : Option Duration :=
  h.history[target]?.map Prod.fst

def update (h : History) (target : String) (elapsed : Duration) (now : SystemTime) : History :=
  { h with history := h.history.insert target (elapsed, now) }

end History
end SprayCC
