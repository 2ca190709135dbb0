import Mathlib.Data.List.Infix
import SprayCC.Async.Trace
import SprayCC.ContactFile

-- Where the contact file is looked for.

open Async

namespace SprayCC

namespace Path

def push (p : Path) (name : String) : Path :=
  name :: p

-- The path without its last component, or `none` if there is no such path and `pop` is false.
def pop : Path → Option Path
  | []     => none
  | _ :: p => some p

theorem length_of_pop {p p' : Path} (h : p.pop = some p') : p'.length < p.length := by
  cases p <;> cases h
  exact Nat.lt_succ_self _

end Path

namespace ContactLookup

-- What the lookup asks of the file system.
inductive Call
  | pathExists (path : Path)
  | openFile (path : Path)
  | readToString (path : Path)

@[reducible]
def Call.Answer : Call → Type
  | pathExists _ | openFile _ => Bool
  | readToString _            => Option String

@[reducible]
def signature : Signature where
  Call   := Call
  Answer := Call.Answer

-- There are no failures which are passed on to the caller.
abbrev Proc := Program signature Empty

def pathExists (path : Path) : Proc Bool :=
  @Program.ask signature Empty (.pathExists path)

def openFile (path : Path) : Proc Bool :=
  @Program.ask signature Empty (.openFile path)

def readToString (path : Path) : Proc (Option String) :=
  @Program.ask signature Empty (.readToString path)

variable (T : Toml CallMe)

def deserializeContactInfo (path : Path) : Proc (Option CallMe) := do
  match ← readToString path with
  | some buf => pure (T.fromStr buf)
  | none     => pure none

def readServerContactInfoFrom (dir : Path) : Proc (Option CallMe) := do
  let path := dir.push connectFile
  if ← pathExists path then
    if ← openFile path then deserializeContactInfo T path else pure none
  else
    -- The first `pop` takes off the name of the file, the second one leads to the parent.
    match _h : path.pop >>= Path.pop with
    | some parent => readServerContactInfoFrom parent
    | none        => pure none
termination_by dir.length
decreasing_by exact Path.length_of_pop ‹_›

-- The directories in which the contact file was looked for.
def visited (tr : Trace signature) : List Path :=
  tr.filterMap fun
    | ⟨.pathExists path, _⟩ => path.pop
    | _                     => none

-- What the file system answers while the lookup runs.
variable (f : (c : signature.Call) → signature.Answer c)

def Contains (dir : Path) : Prop :=
  f (.pathExists (dir.push connectFile)) = true

-- What is made of a contact file, which may not be opened, read or parsed.
def contact (dir : Path) : Option CallMe :=
  if f (.openFile (dir.push connectFile)) then
    (f (.readToString (dir.push connectFile))).bind T.fromStr
  else none

-- The paths from a directory up to the root are its suffixes, `tails` has the longest one first.
structure Nearest (dir : Path) (visits : List Path) (found : Option CallMe) : Prop where
  upwards : visits <+: dir.tails
  once    : visits.Nodup
  -- The nearest directory with a contact file is the last one which is visited.
  nearest : ∀ nearer dir' farther, dir.tails = nearer ++ dir' :: farther →
    (∀ d ∈ nearer, ¬Contains f d) → Contains f dir' →
      visits = nearer ++ [dir'] ∧ found = contact T f dir'
  nowhere : (∀ d ∈ dir.tails, ¬Contains f d) → visits = dir.tails ∧ found = none

variable {T f} {dir : Path}

-- After the name of the file is taken off, the root has no parent.
theorem readServerContactInfoFrom_eq :
    readServerContactInfoFrom T dir =
      .call (.pathExists (dir.push connectFile)) fun found =>
        if found then
          .call (.openFile (dir.push connectFile)) fun opened =>
            if opened then deserializeContactInfo T (dir.push connectFile) else .done none
        else
          match dir with
          | []          => .done none
          | _ :: parent => readServerContactInfoFrom T parent := by
  rw [readServerContactInfoFrom]
  cases dir <;> rfl

theorem play_deserializeContactInfo {path : Path} :
    (deserializeContactInfo T path).play f =
      ([⟨.readToString path, f (.readToString path)⟩],
        .ok ((f (.readToString path)).bind T.fromStr)) := by
  refine Program.play_call.trans ?_
  cases hr : f (.readToString path) <;> simp only <;> rfl

-- The lookup ends in a directory which contains the file.
theorem play_contains (h : Contains f dir) :
    ∃ tr, (readServerContactInfoFrom T dir).play f = (tr, .ok (contact T f dir)) ∧
      visited tr = [dir] := by
  have h : f (.pathExists (dir.push connectFile)) = true := h
  rw [readServerContactInfoFrom_eq, Program.play_call, h, if_pos rfl, Program.play_call, contact]
  cases ho : f (.openFile (dir.push connectFile))
  case false => exact ⟨_, rfl, rfl⟩
  case true  =>
    rw [if_pos rfl, if_pos rfl, play_deserializeContactInfo]
    exact ⟨_, rfl, rfl⟩

-- Else it goes on in the parent, unless there is none.
theorem play_root (h : ¬Contains f []) :
    ∃ tr, (readServerContactInfoFrom T []).play f = (tr, .ok none) ∧ visited tr = [[]] := by
  have h : f (.pathExists (Path.push [] connectFile)) = false := Bool.eq_false_iff.mpr h
  rw [readServerContactInfoFrom_eq, Program.play_call, h]
  exact ⟨_, rfl, rfl⟩

theorem play_parent {name : String} {parent : Path} {tr : Trace signature}
    {r : Except Empty (Option CallMe)} (h : ¬Contains f (name :: parent))
    (hp : (readServerContactInfoFrom T parent).play f = (tr, r)) :
    ∃ tr', (readServerContactInfoFrom T (name :: parent)).play f = (tr', r) ∧
      visited tr' = (name :: parent) :: visited tr := by
  have h : f (.pathExists (Path.push (name :: parent) connectFile)) = false :=
    Bool.eq_false_iff.mpr h
  rw [readServerContactInfoFrom_eq, Program.play_call, h, if_neg Bool.false_ne_true, hp]
  exact ⟨_, rfl, rfl⟩

theorem nodup_tails : dir.tails.Nodup := by
  induction dir with
  | nil                => exact List.nodup_singleton _
  | cons name dir hi =>
    rw [List.tails_cons, List.nodup_cons]
    refine ⟨fun hm => ?_, hi⟩
    have hl := ((List.mem_tails ..).mp hm).length_le
    exact Nat.not_succ_le_self _ hl

theorem exists_tails (dir : Path) : ∃ above, dir.tails = dir :: above := by
  cases dir <;> exact ⟨_, rfl⟩

namespace Nearest

theorem here (h : Contains f dir) : Nearest T f dir [dir] (contact T f dir) := by
  have ⟨above, ht⟩ := exists_tails dir
  constructor
  case upwards => exact ht ▸ List.prefix_append [dir] above
  case once    => exact List.nodup_singleton _
  case nearest =>
    intro nearer dir' farther hd hn _
    cases nearer <;> cases ht.symm.trans hd
    case nil  => exact ⟨rfl, rfl⟩
    case cons => exact absurd h <| hn dir <| .head _
  case nowhere => exact fun hn => absurd h <| hn dir <| ht ▸ .head _

theorem root (h : ¬Contains f []) : Nearest T f [] [[]] none where
  upwards       := List.prefix_rfl
  once          := List.nodup_singleton _
  nearest       := by
    intro nearer dir' farther hd _ hc
    cases nearer
    case nil  => cases hd; exact absurd hc h
    case cons => simp at hd
  nowhere _     := ⟨rfl, rfl⟩

theorem parent {name : String} {visits : List Path} {found : Option CallMe}
    (hn : ¬Contains f (name :: dir)) (h : Nearest T f dir visits found) :
    Nearest T f (name :: dir) ((name :: dir) :: visits) found := by
  have hu : ((name :: dir) :: visits) <+: (name :: dir).tails :=
    List.prefix_cons_inj _ |>.mpr h.upwards
  constructor
  case upwards => exact hu
  case once    => exact hu.sublist.nodup nodup_tails
  case nearest =>
    intro nearer dir' farther hd hf hc
    cases nearer
    case nil       =>
      cases hd
      exact absurd hc hn
    case cons d nearer =>
      have ⟨he, hd⟩ := List.cons.inj hd
      have ⟨hv, hf⟩ := h.nearest nearer dir' farther hd (fun d' hd' => hf d' <| .tail _ hd') hc
      exact ⟨by rw [hv, he]; rfl, hf⟩
  case nowhere =>
    intro hf
    have ⟨hv, hf⟩ := h.nowhere fun d hd => hf d <| .tail _ hd
    exact ⟨by rw [hv]; rfl, hf⟩

end Nearest

-- The lookup comes to its end, at the root if not before.
theorem readServerContactInfoFrom_nearest :
    ∃ tr found, (readServerContactInfoFrom T dir).play f = (tr, .ok found) ∧
      Nearest T f dir (visited tr) found := by
  induction dir with
  | nil              =>
    by_cases h : Contains f []
    case pos =>
      have ⟨tr, hp, hv⟩ := play_contains (T := T) h
      exact ⟨tr, _, hp, hv ▸ .here h⟩
    case neg =>
      have ⟨tr, hp, hv⟩ := play_root (T := T) h
      exact ⟨tr, none, hp, hv ▸ .root h⟩
  | cons name dir hi =>
    by_cases h : Contains f (name :: dir)
    case pos =>
      have ⟨tr, hp, hv⟩ := play_contains (T := T) h
      exact ⟨tr, _, hp, hv ▸ .here h⟩
    case neg =>
      have ⟨_, found, hp, hn⟩ := hi
      have ⟨tr, hp, hv⟩ := play_parent h hp
      exact ⟨tr, found, hp, hv ▸ hn.parent h⟩

section FileSystem

def answer (fs : FileSystem) : (c : signature.Call) → signature.Answer c
  | .pathExists path   => (fs.contents path).isSome
  | .openFile path     => fs.allows path
  | .readToString path => (fs.contents path).bind SprayCC.readToString

variable {fs : FileSystem}

theorem contains_answer : Contains (answer fs) dir ↔ fs.contents (connectFile :: dir) ≠ none :=
  Option.isSome_iff_ne_none

theorem contents_of_not_contains (h : ¬Contains (answer fs) dir) :
    fs.contents (connectFile :: dir) = none :=
  of_not_not <| mt contains_answer.mpr h

theorem read_of_contains (h : Contains (answer fs) dir) :
    SprayCC.readServerContactInfoFrom T fs dir = contact T (answer fs) dir := by
  have ⟨content, hc⟩ := Option.ne_none_iff_exists'.mp <| contains_answer.mp h
  unfold SprayCC.readServerContactInfoFrom contact
  simp only [hc, answer, Path.push]
  rfl

theorem read_root (h : ¬Contains (answer fs) []) :
    SprayCC.readServerContactInfoFrom T fs [] = none := by
  rw [SprayCC.readServerContactInfoFrom, contents_of_not_contains h]

theorem read_parent {name : String} (h : ¬Contains (answer fs) (name :: dir)) :
    SprayCC.readServerContactInfoFrom T fs (name :: dir) =
      SprayCC.readServerContactInfoFrom T fs dir := by
  rw [SprayCC.readServerContactInfoFrom, contents_of_not_contains h]

-- The lookup in a file system gives what the function for it does.
theorem play_answer :
    ∃ tr, (readServerContactInfoFrom T dir).play (answer fs) =
      (tr, .ok (SprayCC.readServerContactInfoFrom T fs dir)) := by
  induction dir with
  | nil              =>
    by_cases h : Contains (answer fs) []
    case pos =>
      have ⟨tr, hp, _⟩ := play_contains (T := T) h
      exact ⟨tr, read_of_contains h ▸ hp⟩
    case neg =>
      have ⟨tr, hp, _⟩ := play_root (T := T) h
      exact ⟨tr, read_root (T := T) h ▸ hp⟩
  | cons name dir hi =>
    by_cases h : Contains (answer fs) (name :: dir)
    case pos =>
      have ⟨tr, hp, _⟩ := play_contains (T := T) h
      exact ⟨tr, read_of_contains h ▸ hp⟩
    case neg =>
      have ⟨_, hp⟩ := hi
      have ⟨tr, hp, _⟩ := play_parent h hp
      exact ⟨tr, read_parent (T := T) h ▸ hp⟩

end FileSystem
end ContactLookup
end SprayCC
