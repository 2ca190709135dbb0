import SprayCC.Exec.Task

-- Where the outputs of a task are redirected to.

namespace SprayCC

-- A run of the loop of `generate_unique_file`, from the name with number `idx` on.
inductive Uniquifies (takenNames : Finset String) (baseName : String) : Nat → String → Prop
  | done : candidate baseName idx ∉ takenNames →
    Uniquifies takenNames baseName idx (candidate baseName idx)
  | turn : candidate baseName idx ∈ takenNames →
    Uniquifies takenNames baseName (idx + 1) name → Uniquifies takenNames baseName idx name

-- A run of the loop of `redirect_outputs`.
inductive Redirects (outputDir : String) :
    Finset String → List String → List UInt16 → List String → List String → Prop
  | nil  : Redirects outputDir takenNames args [] args []
  | cons {i : UInt16} : args[i.toNat]? = some outputName →
    Uniquifies takenNames ((fileName outputName).getD "unknown") 0 name →
    Redirects outputDir (insert name takenNames) (args.set i.toNat (outputDir ++ "/" ++ name)) is
      args' paths →
    Redirects outputDir takenNames args (i :: is) args' ((outputDir ++ "/" ++ name) :: paths)

-- The last component of a path to an entry of a directory.
structure IsName (name : String) : Prop where
  nonempty    : name ≠ ""
  noSeparator : '/' ∉ name.toList
  notDot      : name ≠ "."
  notDotDot   : name ≠ ".."

-- Each output has a path of its own in the directory, and the other arguments are as they were.
structure Redirected (outputDir : String) (args : List String) (is : List UInt16)
    (args' paths : List String) : Prop where
  length   : paths.length = is.length
  distinct : paths.Nodup
  child    : ∀ path ∈ paths, ∃ name, IsName name ∧ path = outputDir ++ "/" ++ name
  output   : ∀ (k : Nat) (i : UInt16) path, is[k]? = some i → paths[k]? = some path →
    args'[i.toNat]? = some path
  other    : ∀ j : Nat, (∀ i ∈ is, i.toNat ≠ j) → args'[j]? = args[j]?

section Names

variable {baseName name outputName : String} {takenNames : Finset String} {idx : Nat}

theorem not_mem_of_mem_splitOn {α : Type} [DecidableEq α] {a : α} {as part : List α}
    (h : part ∈ as.splitOn a) : a ∉ part := by
  induction as generalizing part with
  | nil           => simp_all
  | cons a' as hi =>
    rw [List.splitOn, List.splitOnP_cons_eq_if_modifyHead] at h
    split at h
    case isTrue     =>
      cases h
      case head      => exact List.not_mem_nil
      case tail h    => exact hi h
    case isFalse ha =>
      cases hs : as.splitOnP (· == a)
      case nil           => exact absurd hs (List.splitOnP_ne_nil _ _)
      case cons part' ps =>
        rw [hs, List.modifyHead_cons] at h
        rw [List.splitOn, hs] at hi
        cases h
        case head   =>
          have hn : a' ≠ a := by simpa using ha
          exact List.not_mem_cons_of_ne_of_not_mem hn.symm <| hi <| .head _
        case tail h => exact hi <| .tail _ h

theorem fileName_isName (h : fileName outputName = some name) : IsName name := by
  simp only [fileName] at h
  split at h
  case h_2           => cases h
  case h_1 part hp =>
    have ⟨hm, hf⟩ := List.mem_filter.mp <| List.mem_of_getLast? hp
    have ⟨he, hd⟩ : part ≠ [] ∧ part ≠ ['.'] := of_decide_eq_true hf
    split at h
    case isTrue      => cases h
    case isFalse hdd =>
      cases h
      have hl : (String.ofList part).toList = part := String.toList_ofList
      constructor
      case nonempty    => exact fun hn => he <| hl.symm.trans <| congrArg String.toList hn
      case noSeparator => exact hl.symm ▸ not_mem_of_mem_splitOn hm
      case notDot      => exact fun hn => hd <| hl.symm.trans <| congrArg String.toList hn
      case notDotDot   => exact fun hn => hdd <| hl.symm.trans <| congrArg String.toList hn

theorem isName_unknown : IsName "unknown" := by
  constructor <;> decide

-- A suffix which begins with a dot and a digit makes no name of a directory out of a name.
theorem candidate_isName (h : IsName baseName) : IsName (candidate baseName idx) := by
  cases idx with
  | zero     => exact h
  | succ idx =>
    have ht : (toString (idx + 1)).toList = Nat.toDigits 10 (idx + 1) := Nat.toList_repr
    have hc : (candidate baseName (idx + 1)).toList =
        baseName.toList ++ '.' :: Nat.toDigits 10 (idx + 1) := by
      rw [candidate, String.toList_append, String.toList_append, ht, List.append_assoc]
      rfl
    have hl : 3 ≤ (candidate baseName (idx + 1)).toList.length := by
      have hb : 0 < baseName.toList.length :=
        List.length_pos_iff.mpr fun hn => h.nonempty <| String.toList_eq_nil_iff.mp hn
      have hn : 0 < (Nat.toDigits 10 (idx + 1)).length := Nat.length_toDigits_pos
      rw [hc, List.length_append, List.length_cons]
      omega
    constructor
    case noSeparator =>
      rw [hc]
      intro hs
      rcases List.mem_append.mp hs with hs | hs
      case inl => exact h.noSeparator hs
      case inr =>
        have hs : '/' ∈ Nat.toDigits 10 (idx + 1) := by simpa using hs
        exact absurd (Nat.isDigit_of_mem_toDigits (by decide) (by decide) hs) (by decide)
    all_goals
      intro hn
      rw [hn] at hl
      exact absurd hl (by decide)

theorem uniquifies_uniqueName {fuel : Nat}
    (h : uniqueName baseName takenNames fuel idx ∉ takenNames) :
    Uniquifies takenNames baseName idx (uniqueName baseName takenNames fuel idx) := by
  induction fuel generalizing idx with
  | zero         => exact .done h
  | succ fuel hi =>
    unfold uniqueName at h ⊢
    split at h
    case isTrue hm  => exact if_pos hm ▸ .turn hm (hi h)
    case isFalse hm => exact if_neg hm ▸ .done hm

namespace Uniquifies

theorem not_mem (h : Uniquifies takenNames baseName idx name) : name ∉ takenNames := by
  induction h with
  | done hn    => exact hn
  | turn _ _ h => exact h

theorem isName (h : Uniquifies takenNames baseName idx name) (hb : IsName baseName) :
    IsName name := by
  induction h with
  | done       => exact candidate_isName hb
  | turn _ _ h => exact h

end Uniquifies

theorem baseName_isName : IsName ((fileName outputName).getD "unknown") := by
  cases hn : fileName outputName
  case none => exact isName_unknown
  case some => exact fileName_isName hn

end Names

variable {outputDir : String} {takenNames : Finset String} {args args' paths : List String}
  {is : List UInt16}

-- The loop does not panic if the indices are in range, and comes to its end.
theorem exists_redirects (outputDir : String) (takenNames : Finset String)
    (hr : ∀ i ∈ is, i.toNat < args.length) :
    ∃ args' paths, redirectFrom outputDir takenNames args is = some (args', paths) ∧
      Redirects outputDir takenNames args is args' paths := by
  induction is generalizing takenNames args with
  | nil          => exact ⟨args, [], rfl, .nil⟩
  | cons i is hi =>
    have ⟨hl, hr⟩ := List.forall_mem_cons.mp hr
    have ha : args[i.toNat]? = some args[i.toNat] := List.getElem?_eq_getElem hl
    let baseName := (fileName args[i.toNat]).getD "unknown"
    let name := uniqueName baseName takenNames takenNames.card 0
    let args₁ := args.set i.toNat (outputDir ++ "/" ++ name)
    have hu : Uniquifies takenNames baseName 0 name := uniquifies_uniqueName uniqueName_not_mem
    have hr : ∀ i ∈ is, i.toNat < args₁.length := by simpa [args₁] using hr
    have ⟨args', paths, hf, hs⟩ := hi (insert name takenNames) hr
    refine ⟨args', (outputDir ++ "/" ++ name) :: paths, ?_, .cons ha hu hs⟩
    simp only [redirectFrom, ha, generateUniqueFile, Option.bind_eq_bind, Option.bind_some]
    exact Option.bind_eq_some_iff.mpr ⟨_, hf, rfl⟩

namespace Redirects

theorem length (h : Redirects outputDir takenNames args is args' paths) :
    paths.length = is.length := by
  induction h with
  | nil           => rfl
  | cons _ _ _ hi => rw [List.length_cons, List.length_cons, hi]

theorem other {j : Nat} (h : Redirects outputDir takenNames args is args' paths)
    (hj : ∀ i ∈ is, i.toNat ≠ j) : args'[j]? = args[j]? := by
  induction h with
  | nil           => rfl
  | cons _ _ _ hi =>
    have ⟨hn, hj⟩ := List.forall_mem_cons.mp hj
    rw [hi hj, List.getElem?_set_ne hn]

-- The names of the paths are not taken before.
theorem child {path : String} (h : Redirects outputDir takenNames args is args' paths)
    (hp : path ∈ paths) :
    ∃ name, name ∉ takenNames ∧ IsName name ∧ path = outputDir ++ "/" ++ name := by
  induction h with
  | nil            => cases hp
  | cons _ hu _ hi =>
    cases hp
    case head    => exact ⟨_, hu.not_mem, hu.isName baseName_isName, rfl⟩
    case tail hp =>
      have ⟨name, hn, hc⟩ := hi hp
      exact ⟨name, fun hm => hn <| Finset.mem_insert_of_mem hm, hc⟩

theorem distinct (h : Redirects outputDir takenNames args is args' paths) : paths.Nodup := by
  induction h with
  | nil             => exact .nil
  | cons _ _ hs hi =>
    refine List.nodup_cons.mpr ⟨fun hp => ?_, hi⟩
    have ⟨name, hn, _, hp⟩ := hs.child hp
    have hp := (String.append_right_inj _).mp hp
    exact hn <| hp ▸ Finset.mem_insert_self ..

theorem output {k : Nat} {i : UInt16} {path : String}
    (h : Redirects outputDir takenNames args is args' paths) (hn : is.Nodup)
    (hi : is[k]? = some i) (hp : paths[k]? = some path) : args'[i.toNat]? = some path := by
  induction h generalizing k with
  | nil                => cases hi
  | cons ha _ hs ih =>
    have ⟨hm, hn⟩ := List.nodup_cons.mp hn
    cases k
    case zero   =>
      cases hi
      cases hp
      have ⟨hl, _⟩ := List.getElem?_eq_some_iff.mp ha
      have ho := hs.other (j := i.toNat) fun i' hi' he => hm <| UInt16.toNat_inj.mp he ▸ hi'
      rw [ho, List.getElem?_set_self hl]
    case succ k => exact ih hn hi hp

end Redirects

-- Distinct outputs have distinct paths in the directory, whatever their names are.
theorem redirectOutputs_redirected (hn : is.Nodup) (hr : ∀ i ∈ is, i.toNat < args.length) :
    ∃ args' paths, redirectOutputs (.ok outputDir) args is = some (.ok (args', paths)) ∧
      Redirects outputDir ∅ args is args' paths ∧ Redirected outputDir args is args' paths := by
  have ⟨args', paths, hf, hs⟩ := exists_redirects outputDir ∅ hr
  refine ⟨args', paths, ?_, hs, ?_⟩
  case refine_1 =>
    unfold redirectOutputs
    split
    case isTrue he => rw [List.isEmpty_iff.mp he] at hf; cases hf; rfl
    case isFalse   => simp [hf]
  case refine_2 =>
    constructor
    case length   => exact hs.length
    case distinct => exact hs.distinct
    case child    =>
      intro path hp
      have ⟨name, _, hc⟩ := hs.child hp
      exact ⟨name, hc⟩
    case output   => exact fun _ _ _ => hs.output hn
    case other    => exact fun _ => hs.other

-- Two outputs have the same name, and the third has the one which is made up for the second.
theorem redirectOutputs_redirected_suffixed :
    ∃ args' paths,
      redirectOutputs (.ok "/tmp/farm") ["gcc", "a", "obj/a", "a.1"] [1, 2, 3] =
          some (.ok (args', paths)) ∧
        Redirects "/tmp/farm" ∅ ["gcc", "a", "obj/a", "a.1"] [1, 2, 3] args' paths ∧
        Redirected "/tmp/farm" ["gcc", "a", "obj/a", "a.1"] [1, 2, 3] args' paths :=
  redirectOutputs_redirected (by decide) (by simp)

end SprayCC
