import SprayCC.Async.Runs
import SprayCC.ContactFile

open Async

-- The servers of a host, each of which announces itself in its directory, and the lookups of their
-- clients.

namespace SprayCC

-- Where a server is: it listens once it is `bound`, until it is `gone`. In between, it has opened
-- its contact file, it has written it, and it has removed it again.
inductive ServerStage
  | off
  | bound
  | opened
  | announced
  | cleaned
  | gone
  deriving DecidableEq

namespace ServerStage

-- The contact file of the server is there.
def Shown : ServerStage → Prop
  | opened | announced => True
  | _                  => False

instance : DecidablePred Shown
  | opened | announced           => .isTrue trivial
  | off | bound | cleaned | gone => .isFalse id

end ServerStage

-- The files of the host, and all servers which are ever started there.
structure Site (ι : Type) where
  files  : FileSystem
  stages : ι → ServerStage

namespace Site

inductive Label (ι : Type)
  | binds (i : ι)
  | opens (i : ι)
  | writes (i : ι) (written : Nat)
  | removes (i : ι) (ok : Bool)
  | closes (i : ι)
  | dies (i : ι)

variable {ι : Type}

def start (files : FileSystem) : Site ι where
  files    := files
  stages _ := .off

section Steps

variable [DecidableEq ι] (T : Toml CallMe) (dir : ι → Path) (callme : ι → CallMe)

def set (σ : Site ι) (i : ι) (stage : ServerStage) : Site ι :=
  { σ with stages := Function.update σ.stages i stage }

-- What there is at the path of the contact file of a directory.
def put (σ : Site ι) (d : Path) (content : Option (List UInt8)) : Site ι :=
  { σ with files := { σ.files with
      contents := Function.update σ.files.contents (connectFile :: d) content } }

-- The steps of `run` which have to do with the contact file, from the `bind` of the listener to the
-- end of the function, where the file is removed before the listener is closed.
def step (σ : Site ι) : Label ι → Option (Site ι)
  | .binds i =>
    match σ.stages i with
    | .off => some (σ.set i .bound)
    | _    => none
  | .opens i =>
    let path := connectFile :: dir i
    match σ.stages i with
    | .bound =>
      if σ.files.allows path then
        some <| (σ.set i .opened).put (dir i) (some <| (σ.files.contents path).getD [])
      else some (σ.set i .gone)
    | _ => none
  -- A write which fails half way leaves a part of the text.
  | .writes i written =>
    match σ.stages i with
    | .opened =>
      match T.toString (callme i) with
      | some config =>
        let text := utf8 config
        let stage := if text.length ≤ written then .announced else .gone
        some <| (σ.set i stage).put (dir i) <|
          (σ.files.contents (connectFile :: dir i)).map (overwrite · (text.take written))
      | none => some (σ.set i .gone)
    | _ => none
  -- The removal may fail, which is ignored.
  | .removes i ok =>
    match σ.stages i with
    | .announced => some <| if ok then (σ.set i .cleaned).put (dir i) none else σ.set i .cleaned
    | _          => none
  | .closes i =>
    match σ.stages i with
    | .cleaned => some (σ.set i .gone)
    | _        => none
  | .dies i =>
    match σ.stages i with
    | .off | .gone => none
    | _            => some (σ.set i .gone)

-- A server is started where there is no contact file, and is not killed while there is one of its
-- own.
def Orderly (σ : Site ι) : Label ι → Prop
  | .opens i     => σ.files.contents (connectFile :: dir i) = none
  | .writes i n  => ∃ config, T.toString (callme i) = some config ∧ (utf8 config).length ≤ n
  | .removes _ b => b
  | .dies i      => ¬(σ.stages i).Shown
  | _            => True

end Steps

-- What is in the contact file of a server.
def Text (T : Toml CallMe) (callme : CallMe) (content : List UInt8) : ServerStage → Prop
  | .opened    => content = []
  | .announced => ∃ config, T.toString callme = some config ∧ content = utf8 config
  | _          => False

-- The contact files are those of the servers which have not removed them.
structure Sound (T : Toml CallMe) (dir : ι → Path) (callme : ι → CallMe) (σ : Site ι) : Prop where
  shown  : (σ.stages i).Shown → σ.files.allows (connectFile :: dir i) ∧
    ∃ content, σ.files.contents (connectFile :: dir i) = some content ∧
      Text T (callme i) content (σ.stages i)
  held   : σ.files.contents (connectFile :: d) ≠ none → ∃ i, dir i = d ∧ (σ.stages i).Shown
  single : (σ.stages i).Shown → (σ.stages j).Shown → dir i = dir j → i = j

-- What the steps of orderly servers are.
inductive Turn [DecidableEq ι] (T : Toml CallMe) (dir : ι → Path) (callme : ι → CallMe)
    (σ : Site ι) : Site ι → Prop
  | hides {i : ι} {stage : ServerStage} :
    ¬(σ.stages i).Shown → ¬stage.Shown → Turn T dir callme σ (σ.set i stage)
  | opens {i : ι} :
    ¬(σ.stages i).Shown → σ.files.allows (connectFile :: dir i) →
    σ.files.contents (connectFile :: dir i) = none →
    Turn T dir callme σ ((σ.set i .opened).put (dir i) (some []))
  | writes {i : ι} {config : String} :
    σ.stages i = .opened → T.toString (callme i) = some config →
    Turn T dir callme σ ((σ.set i .announced).put (dir i) (some (utf8 config)))
  | removes {i : ι} :
    σ.stages i = .announced → Turn T dir callme σ ((σ.set i .cleaned).put (dir i) none)

variable {T : Toml CallMe} {dir : ι → Path} {callme : ι → CallMe} {σ σ' : Site ι} {i j : ι}
variable {d : Path} {files : FileSystem}

theorem Sound.start (hf : ∀ d, files.contents (connectFile :: d) = none) :
    Sound T dir callme (.start files) where
  shown h    := h.elim
  held h     := absurd (hf _) h
  single h _ := h.elim

variable {content : Option (List UInt8)}

@[simp]
theorem contents_put_self : (σ.put d content).files.contents (connectFile :: d) = content :=
  Function.update_self ..

@[simp]
theorem contents_put_ne {d' : Path} (h : d' ≠ d) :
    (σ.put d content).files.contents (connectFile :: d') =
      σ.files.contents (connectFile :: d') :=
  Function.update_of_ne (by simpa using h) ..

section Steps

variable [DecidableEq ι] {l : Label ι} {ls : List (Label ι)} {stage : ServerStage}

@[simp]
theorem stages_set_self : (σ.set i stage).stages i = stage :=
  Function.update_self ..

@[simp]
theorem stages_set_ne (h : j ≠ i) : (σ.set i stage).stages j = σ.stages j :=
  Function.update_of_ne h ..

theorem shown_of_set (h : ((σ.set i stage).stages j).Shown) :
    j = i ∨ j ≠ i ∧ (σ.stages j).Shown := by
  by_cases hn : j = i
  case pos => exact .inl hn
  case neg => exact .inr ⟨hn, stages_set_ne hn ▸ h⟩

theorem Sound.turn_of_step (h : Sound T dir callme σ) (hs : σ.step T dir callme l = some σ')
    (ho : σ.Orderly T dir callme l) : σ.Turn T dir callme σ' := by
  cases l <;> simp only [step] at hs
  case binds i =>
    split at hs <;> cases hs
    case h_1 hi => exact .hides (by simp [hi, ServerStage.Shown]) id
  case opens i =>
    split at hs <;> [skip; cases hs]
    case h_1 hi =>
      have hn : ¬(σ.stages i).Shown := by simp [hi, ServerStage.Shown]
      split at hs <;> cases hs
      case isTrue ha  =>
        have ho : σ.files.contents (connectFile :: dir i) = none := ho
        rw [ho]
        exact .opens hn ha ho
      case isFalse ha => exact .hides hn id
  case writes i written =>
    have ⟨config, hc, hl⟩ := ho
    split at hs <;> [skip; cases hs]
    case h_1 hi =>
      have ⟨_, content, hf, ht⟩ := h.shown (i := i) (by rw [hi]; trivial)
      rw [hi] at ht
      obtain rfl : content = [] := ht
      simp only [hc, hl, if_true, hf, Option.map_some, Option.some.injEq] at hs
      rw [← hs, List.take_of_length_le hl, overwrite, List.drop_nil, List.append_nil]
      exact .writes hi hc
  case removes i ok =>
    split at hs <;> cases hs
    case h_1 hi =>
      obtain rfl : ok = true := ho
      exact .removes hi
  case closes i =>
    split at hs <;> cases hs
    case h_1 hi => exact .hides (by simp [hi, ServerStage.Shown]) id
  case dies i =>
    split at hs <;> cases hs
    case h_3 => exact .hides ho id

-- The server is the only one with a contact file in its directory.
theorem Sound.put (h : Sound T dir callme σ)
    (hs : stage.Shown → σ.files.allows (connectFile :: dir i) ∧
      ∃ data, content = some data ∧ Text T (callme i) data stage)
    (hc : content ≠ none → stage.Shown)
    (hj : ∀ j, j ≠ i → (σ.stages j).Shown → dir j ≠ dir i) :
    Sound T dir callme ((σ.set i stage).put (dir i) content) where
  shown {j} hn := by
    by_cases he : j = i
    case pos =>
      subst he
      have hn : ((σ.set j stage).stages j).Shown := hn
      rw [stages_set_self] at hn
      have ⟨ha, data, hd, ht⟩ := hs hn
      refine ⟨ha, data, by simp [hd], ?_⟩
      show Text T (callme j) data ((σ.set j stage).stages j)
      rwa [stages_set_self]
    case neg =>
      have hn : ((σ.set i stage).stages j).Shown := hn
      rw [stages_set_ne he] at hn
      have ⟨ha, data, hd, ht⟩ := h.shown hn
      refine ⟨ha, data, ?_, ?_⟩
      case refine_1 =>
        rw [contents_put_ne (hj j he hn)]
        exact hd
      case refine_2 =>
        show Text T (callme j) data ((σ.set i stage).stages j)
        rwa [stages_set_ne he]
  held {d} hn := by
    by_cases hd : d = dir i
    case pos =>
      subst hd
      rw [contents_put_self] at hn
      refine ⟨i, rfl, ?_⟩
      show ((σ.set i stage).stages i).Shown
      rw [stages_set_self]
      exact hc hn
    case neg =>
      rw [contents_put_ne hd] at hn
      have ⟨j, he, hsh⟩ := h.held hn
      have hne : j ≠ i := by
        rintro rfl
        exact hd he.symm
      refine ⟨j, he, ?_⟩
      show ((σ.set i stage).stages j).Shown
      rwa [stages_set_ne hne]
  single {j k} hj' hk he := by
    rcases shown_of_set hj' with rfl | ⟨hji, hj₁⟩ <;> rcases shown_of_set hk with rfl | ⟨hki, hk₁⟩
    case inl.inl => rfl
    case inl.inr => exact absurd he.symm (hj k hki hk₁)
    case inr.inl => exact absurd he (hj j hji hj₁)
    case inr.inr => exact h.single hj₁ hk₁ he

theorem Sound.hides (h : Sound T dir callme σ) (hi : ¬(σ.stages i).Shown) (hn : ¬stage.Shown) :
    Sound T dir callme (σ.set i stage) := by
  have hs {j} : ((σ.set i stage).stages j).Shown ↔ (σ.stages j).Shown := by
    by_cases he : j = i
    case pos => subst he; simp [hi, hn]
    case neg => rw [stages_set_ne he]
  refine ⟨fun {j} hj => ?_, fun hc => ?_, fun hj hk => h.single (hs.mp hj) (hs.mp hk)⟩
  case refine_1 =>
    have hs := hs.mp hj
    have he : j ≠ i := fun he => hi (he ▸ hs)
    have ⟨ha, data, hd, ht⟩ := h.shown hs
    exact ⟨ha, data, hd, by rwa [stages_set_ne he]⟩
  case refine_2 =>
    have ⟨j, hd, hj⟩ := h.held hc
    exact ⟨j, hd, hs.mpr hj⟩

theorem Sound.turn (h : Sound T dir callme σ) (t : σ.Turn T dir callme σ') :
    Sound T dir callme σ' := by
  have single {i j} (hi : (σ.stages i).Shown) (hn : j ≠ i) (hj : (σ.stages j).Shown) :
      dir j ≠ dir i := fun he => hn (h.single hj hi he)
  cases t
  case hides hi hn => exact h.hides hi hn
  case opens i _ ha hc =>
    refine h.put (fun _ => ⟨ha, [], rfl, rfl⟩) (fun _ => trivial) fun j _ hj he => ?_
    have ⟨_, _, hd, _⟩ := h.shown hj
    rw [he, hc] at hd
    cases hd
  case writes i config hi hc =>
    have hi : (σ.stages i).Shown := hi ▸ trivial
    have ha := (h.shown hi).left
    exact h.put (fun _ => ⟨ha, _, rfl, config, hc, rfl⟩) (fun _ => trivial) fun _ => single hi
  case removes i hi =>
    have hi : (σ.stages i).Shown := hi ▸ trivial
    exact h.put (fun hn => hn.elim) (fun hn => absurd rfl hn) fun _ => single hi

-- Orderly servers keep it that way.
theorem Sound.run (h : Sound T dir callme σ)
    (ha : Along (step T dir callme) (Orderly T dir callme) ls σ)
    (hr : ls.foldlM (step T dir callme) σ = some σ') : Sound T dir callme σ' := by
  induction ls generalizing σ with
  | nil          => exact Option.some.inj hr ▸ h
  | cons l ls hi =>
    have ⟨_, hs, hr⟩ := Option.bind_eq_some_iff.mp hr
    have ⟨ho, ha⟩ := ha _ hs
    exact hi (h.turn <| h.turn_of_step hs ho) ha hr

end Steps

-- The server is the nearest one with a contact file, on the way up from the directory.
structure Nearest (σ : Site ι) (dir : ι → Path) (d : Path) (i : ι) : Prop where
  shown   : (σ.stages i).Shown
  above   : dir i <:+ d
  nearest : ∀ j, (σ.stages j).Shown → dir j <:+ d → dir j <:+ dir i

theorem Sound.nearest_iff (h : Sound T dir callme σ) (hi : (σ.stages i).Shown) :
    σ.Nearest dir (dir i) j ↔ j = i := by
  constructor
  case mp  =>
    intro hn
    have hl := (hn.nearest i hi List.suffix_rfl).length_le
    exact h.single hn.shown hi <| hn.above.eq_of_length_le hl
  case mpr =>
    rintro rfl
    exact ⟨hi, List.suffix_rfl, fun _ _ => id⟩

theorem nearest_cons_iff {name : String} (hn : ∀ j, (σ.stages j).Shown → dir j ≠ name :: d) :
    σ.Nearest dir (name :: d) i ↔ σ.Nearest dir d i := by
  have hs {j} (hj : (σ.stages j).Shown) : dir j <:+ name :: d ↔ dir j <:+ d := by
    rw [List.suffix_cons_iff]
    exact or_iff_right (hn j hj)
  constructor
  case mp  =>
    intro h
    exact ⟨h.shown, (hs h.shown).mp h.above, fun j hj hd => h.nearest j hj <| (hs hj).mpr hd⟩
  case mpr =>
    intro h
    exact ⟨h.shown, (hs h.shown).mpr h.above, fun j hj hd => h.nearest j hj <| (hs hj).mp hd⟩

theorem deserializeContactInfo_utf8 {config : String} :
    deserializeContactInfo T (utf8 config) = T.fromStr config := by
  simp [deserializeContactInfo, readToString_utf8]

-- A client finds the server which is nearest to it, if that one has written its file.
theorem Sound.finds_iff {found : CallMe} (h : Sound T dir callme σ)
    (hT : ∀ i, T.Undoes (callme i)) (he : T.fromStr "" = none) :
    readServerContactInfoFrom T σ.files d = some found ↔
      ∃ i, σ.Nearest dir d i ∧ σ.stages i = .announced ∧ callme i = found := by
  have absent {d} (hc : σ.files.contents (connectFile :: d) = none) (j)
      (hj : (σ.stages j).Shown) : dir j ≠ d := by
    rintro rfl
    have ⟨_, _, hd, _⟩ := h.shown hj
    cases hd.symm.trans hc
  have present {d content} (hc : σ.files.contents (connectFile :: d) = some content) :
      readServerContactInfoFrom T σ.files d = some found ↔
        ∃ i, σ.Nearest dir d i ∧ σ.stages i = .announced ∧ callme i = found := by
    obtain ⟨i, rfl, hi⟩ := h.held (d := d) (by simp [hc])
    have ⟨ha, _, hc', ht⟩ := h.shown hi
    cases hc.symm.trans hc'
    have hr : readServerContactInfoFrom T σ.files (dir i) = deserializeContactInfo T content := by
      unfold readServerContactInfoFrom
      simp [hc, ha]
    simp only [hr, h.nearest_iff hi, exists_eq_left]
    cases hs : σ.stages i <;> rw [hs] at hi ht
    case opened =>
      obtain rfl : content = utf8 "" := ht
      simp [deserializeContactInfo_utf8, he]
    case announced =>
      obtain ⟨config, hconfig, rfl⟩ := ht
      simp [deserializeContactInfo_utf8, hT i _ hconfig]
    all_goals exact hi.elim
  induction d with
  | nil =>
    cases hc : σ.files.contents [connectFile]
    case some => exact present hc
    case none =>
      unfold readServerContactInfoFrom
      simp only [hc, reduceCtorEq, false_iff]
      rintro ⟨i, hn, _⟩
      exact absent hc i hn.shown <| List.suffix_nil.mp hn.above
  | cons name d hi =>
    cases hc : σ.files.contents (connectFile :: name :: d)
    case some => exact present hc
    case none =>
      unfold readServerContactInfoFrom
      simp only [hc, nearest_cons_iff (absent hc), hi]

section Runs

variable [DecidableEq ι] {ls : List (Label ι)} {fs : FileSystem}

-- The two steps are those of `write_server_contact_info`.
theorem run_writeServerContactInfo (hi : σ.stages i = .bound)
    (hw : writeServerContactInfo T σ.files (dir i) (callme i) = .ok fs) :
    ∃ written, [.opens i, .writes i written].foldlM (step T dir callme) σ =
      some { σ.set i .announced with files := fs } := by
  unfold writeServerContactInfo at hw
  dsimp only at hw
  split at hw <;> [skip; cases hw]
  case isTrue ha =>
    split at hw <;> cases hw
    case h_1 config hc =>
      refine ⟨(utf8 config).length, ?_⟩
      have ho : σ.step T dir callme (.opens i) =
          some ((σ.set i .opened).put (dir i)
            (some <| (σ.files.contents (connectFile :: dir i)).getD [])) := by
        simp [step, hi, ha]
      simp only [List.foldlM_cons, List.foldlM_nil, ho, Option.bind_eq_bind, Option.bind_some]
      simp [step, hc, put, set]

-- Whatever the order of their steps, a lookup finds the nearest of the servers whose files are
-- there, once its file is written, and else nothing. The files are those of the servers which have
-- opened them and have not removed them again.
theorem found_iff {found : CallMe} (hT : ∀ i, T.Undoes (callme i)) (he : T.fromStr "" = none)
    (hf : ∀ d, files.contents (connectFile :: d) = none)
    (ha : Along (step T dir callme) (Orderly T dir callme) ls (start files))
    (hr : ls.foldlM (step T dir callme) (start files) = some σ) :
    (readServerContactInfoFrom T σ.files d = some found ↔
      ∃ i, σ.Nearest dir d i ∧ σ.stages i = .announced ∧ callme i = found) ∧
    (σ.files.contents (connectFile :: d) ≠ none ↔ ∃ i, dir i = d ∧ (σ.stages i).Shown) := by
  have h := (Sound.start hf).run ha hr
  refine ⟨h.finds_iff hT he, h.held, ?_⟩
  rintro ⟨i, rfl, hi⟩
  have ⟨_, _, hc, _⟩ := h.shown hi
  simp [hc]

-- A server in a directory, and one which is just being started below.

def nestedDir : Bool → Path
  | false => ["src"]
  | true  => ["lib", "src"]

def nestedCallme : Bool → CallMe
  | false => killed
  | true  => restarted

def nestedToml : Toml CallMe :=
  contactToml [killed, restarted]

def nested : List (Label Bool) :=
  [.binds false, .opens false, .binds true, .writes false 100, .opens true]

theorem contactText_killed_ne : contactText killed ≠ contactText restarted := by
  decide +kernel

theorem undoes_nested (b : Bool) : nestedToml.Undoes (nestedCallme b) := by
  intro text hs
  cases hs
  have hk : killed.accessCode = 8764320 := rfl
  have hr : restarted.accessCode = 42 := rfl
  cases b <;> simp [nestedToml, nestedCallme, contactToml, contactText_killed_ne, hk, hr]

theorem orderly_nested :
    Along (step nestedToml nestedDir nestedCallme) (Orderly nestedToml nestedDir nestedCallme)
      nested (start ⟨fun _ => none, fun _ => true⟩) := by
  rintro _ ⟨⟩
  refine ⟨trivial, ?_⟩
  rintro _ ⟨⟩
  refine ⟨rfl, ?_⟩
  rintro _ ⟨⟩
  refine ⟨trivial, ?_⟩
  rintro _ ⟨⟩
  refine ⟨⟨contactText killed, rfl, by decide +kernel⟩, ?_⟩
  rintro _ ⟨⟩
  exact ⟨rfl, trivial⟩

theorem found_nested :
    ∃ σ, nested.foldlM (step nestedToml nestedDir nestedCallme)
        (start ⟨fun _ => none, fun _ => true⟩) = some σ ∧
      readServerContactInfoFrom nestedToml σ.files ["doc", "src"] = some killed := by
  refine ⟨_, rfl, ?_⟩
  refine (found_iff undoes_nested (by decide +kernel) (fun _ => rfl) orderly_nested rfl).left.mpr ?_
  refine ⟨false, ⟨trivial, by decide, fun j hj hd => ?_⟩, rfl, rfl⟩
  cases j
  case false => exact List.suffix_rfl
  case true  => exact absurd hd (by decide)

end Runs

end Site
end SprayCC
