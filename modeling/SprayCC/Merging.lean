import SprayCC.HistoryFile

-- Which of two entries for the same target is left in the history file.

namespace SprayCC

section Filter

-- Two values may be written in any order, if each passes the filter `p` at the first write and `p'`
-- at the second: where there are both, they are the same or neither passes, and no value passes
-- only at the second write.
def Agree {α : Type} (p p' : α → Bool) : Option α → Option α → Prop
  | some a, some b => p' a ∨ p' b → a = b
  | some a, none   => p' a → p a
  | none,   some a => p' a → p a
  | none,   none   => True

variable {α : Type} {p p' : α → Bool} {a b : α}

theorem filter_eq_filter_iff :
    (some a).filter p = (some b).filter p ↔ (p a ∨ p b → a = b) := by
  cases ha : p a <;> cases hb : p b
  case false.false => simp [Option.filter, ha, hb]
  case true.true   => simp [Option.filter, ha, hb]
  case false.true  =>
    have hn : a ≠ b := fun he => by simp [← he, ha] at hb
    simp [Option.filter, ha, hb, hn]
  case true.false  =>
    have hn : a ≠ b := fun he => by simp [← he, ha] at hb
    simp [Option.filter, ha, hb, hn]

theorem filter_eq_filter_filter_iff :
    (some a).filter p' = ((some a).filter p).filter p' ↔ (p' a → p a) := by
  cases h : p a <;> cases h' : p' a <;> simp [Option.filter, h, h']

theorem agree_iff {o o' total : Option α} :
    (o'.or ((o.or total).filter p)).filter p' = (o.or ((o'.or total).filter p)).filter p' ↔
      Agree p p' o o' := by
  cases o <;> cases o'
  case none.none => exact iff_of_true rfl trivial
  case none.some => exact filter_eq_filter_filter_iff
  case some.none => exact eq_comm.trans filter_eq_filter_filter_iff
  case some.some => exact eq_comm.trans filter_eq_filter_iff

end Filter

namespace History

variable {h h' : History} {now now' : SystemTime} {target : String}
  {entry entry' : Duration × SystemTime}

theorem getElem?_dropStale_merge :
    ((h.merge h').dropStale now).history[target]? =
      (h'.history[target]?.or h.history[target]?).filter (recent now ·.snd) := by
  simp [dropStale, merge, Std.ExtTreeMap.getElem?_union]

-- An entry of one of the two histories than which there is no newer one for the target.
def Newest (h h' : History) (target : String) (entry : Duration × SystemTime) : Prop :=
  (h.history[target]? = some entry ∨ h'.history[target]? = some entry) ∧
    ∀ entry', h.history[target]? = some entry' ∨ h'.history[target]? = some entry' →
      entry'.snd ≤ entry.snd

-- What should be remembered of a target: the newest entry if it is not stale.
def Remembers (h h' : History) (now : SystemTime) (target : String) (elapsed : Option Duration) :
    Prop :=
  (∃ entry, h.Newest h' target entry ∧ recent now entry.snd ∧ elapsed = some entry.fst) ∨
    (∀ entry, h.Newest h' target entry → ¬recent now entry.snd) ∧ elapsed = none

-- Where the first history has the newer entry, nothing is lost with it.
def Harmless (h h' : History) (now : SystemTime) : Prop :=
  ∀ (target : String) (entry entry' : Duration × SystemTime), h.history[target]? = some entry →
    h'.history[target]? = some entry' → entry'.snd < entry.snd → recent now entry.snd →
      recent now entry'.snd ∧ entry'.fst = entry.fst

theorem get_dropStale_merge :
    ((h.merge h').dropStale now).get target =
      ((h'.history[target]?.or h.history[target]?).filter (recent now ·.snd)).map Prod.fst :=
  congrArg _ getElem?_dropStale_merge

-- All newest entries for a target are of the same time.
theorem Newest.remembers_iff (hn : h.Newest h' target entry) {elapsed : Option Duration} :
    h.Remembers h' now target elapsed ↔
      if recent now entry.snd then
        ∃ entry', h.Newest h' target entry' ∧ elapsed = some entry'.fst
      else elapsed = none := by
  have ht {entry'} (hn' : h.Newest h' target entry') : entry'.snd = entry.snd :=
    Nat.le_antisymm (hn.right _ hn'.left) (hn'.right _ hn.left)
  unfold Remembers
  split
  case isTrue hr =>
    constructor
    case mp  =>
      rintro (⟨entry', hn', _, he⟩ | ⟨hs, _⟩)
      case inl => exact ⟨entry', hn', he⟩
      case inr => exact absurd hr <| hs entry hn
    case mpr =>
      intro ⟨entry', hn', he⟩
      exact .inl ⟨entry', hn', (ht hn').symm ▸ hr, he⟩
  case isFalse hr =>
    constructor
    case mp  =>
      rintro (⟨entry', hn', hr', _⟩ | ⟨_, he⟩)
      case inl => exact absurd (ht hn' ▸ hr') hr
      case inr => exact he
    case mpr => exact fun he => .inr ⟨fun entry' hn' => (ht hn').symm ▸ hr, he⟩

-- What is read of an entry.
theorem remembers_entry (hn : h.Newest h' target entry) :
    h.Remembers h' now target (((some entry).filter (recent now ·.snd)).map Prod.fst) := by
  rw [hn.remembers_iff]
  by_cases hr : recent now entry.snd
  case pos => simp only [hr, if_true]; exact ⟨entry, hn, by simp [Option.filter, hr]⟩
  case neg => simp [Option.filter, hr]

theorem Newest.symm (hn : h.Newest h' target entry) : h'.Newest h target entry :=
  ⟨hn.left.symm, fun _ hm => hn.right _ hm.symm⟩

theorem newest_of_le (he : h.history[target]? = some entry)
    (he' : h'.history[target]? = some entry') (hl : entry'.snd ≤ entry.snd) :
    h.Newest h' target entry := by
  refine ⟨.inl he, ?_⟩
  rintro _ (hm | hm)
  case inl => exact Option.some.inj (he.symm.trans hm) ▸ le_rfl
  case inr => exact Option.some.inj (he'.symm.trans hm) ▸ hl

theorem Newest.eq_left (he : h.history[target]? = some entry)
    (he' : h'.history[target]? = some entry') (hl : entry'.snd < entry.snd)
    {entry'' : Duration × SystemTime} (hn : h.Newest h' target entry'') : entry'' = entry := by
  rcases hn.left with hm | hm
  case inl => exact Option.some.inj <| hm.symm.trans he
  case inr =>
    have hm := Option.some.inj <| hm.symm.trans he'
    exact absurd (hn.right entry <| .inl he) <| Nat.not_le.mpr <| hm ▸ hl

theorem remembers_target_iff :
    h.Remembers h' now target (((h.merge h').dropStale now).get target) ↔
      ∀ (entry entry' : Duration × SystemTime), h.history[target]? = some entry →
        h'.history[target]? = some entry' → entry'.snd < entry.snd → recent now entry.snd →
          recent now entry'.snd ∧ entry'.fst = entry.fst := by
  rw [get_dropStale_merge]
  cases he : h.history[target]? <;> cases he' : h'.history[target]?
  case none.none =>
    exact iff_of_true (.inr ⟨fun _ hn => by simp [Newest, he, he'] at hn, rfl⟩) nofun
  case none.some entry' =>
    have hn : h.Newest h' target entry' := by simp [Newest, he, he']
    exact iff_of_true (remembers_entry hn) nofun
  case some.none entry =>
    have hn : h.Newest h' target entry := by simp [Newest, he, he']
    exact iff_of_true (remembers_entry hn) nofun
  case some.some entry entry' =>
    rcases Nat.lt_or_ge entry'.snd entry.snd with hl | hl
    case inr =>
      refine iff_of_true (remembers_entry (newest_of_le he' he hl).symm) fun _ _ h₁ h₂ hl' => ?_
      cases h₁
      cases h₂
      exact absurd hl' (Nat.not_lt.mpr hl)
    case inl =>
      have hn := newest_of_le he he' hl.le
      rw [hn.remembers_iff]
      split
      case isFalse hs =>
        have hs' : ¬recent now entry'.snd := fun hr => hs <| recent_mono hr hl.le
        refine iff_of_true (by simp [Option.filter, hs']) fun _ _ h₁ _ _ hs'' => ?_
        cases h₁
        exact absurd hs'' hs
      case isTrue hs =>
        constructor
        case mp  =>
          rintro ⟨entry'', hn', hg⟩ _ _ h₁ h₂ _ _
          cases h₁
          cases h₂
          have hg : recent now entry'.snd ∧ entry'.fst = entry''.fst := by
            simpa [Option.filter, apply_ite] using hg
          exact ⟨hg.left, hn'.eq_left he he' hl ▸ hg.right⟩
        case mpr =>
          intro h
          have ⟨hs', hf⟩ := h entry entry' rfl rfl hl hs
          exact ⟨entry, hn, by simp [Option.filter, hs', hf]⟩

theorem remembers_iff :
    (∀ target, h.Remembers h' now target (((h.merge h').dropStale now).get target)) ↔
      h.Harmless h' now :=
  forall_congr' fun _ => remembers_target_iff

-- The two histories may be written in any order, the first one at `now` and the second at `now'`.
def Unordered (h h' : History) (now now' : SystemTime) : Prop :=
  ∀ target : String,
    Agree (recent now ·.snd) (recent now' ·.snd) h.history[target]? h'.history[target]?

theorem eq_iff_of_version (hv : h.version = h'.version) :
    h = h' ↔ ∀ target : String, h.history[target]? = h'.history[target]? := by
  cases h
  cases h'
  cases hv
  simp only [mk.injEq, true_and]
  exact ⟨fun h _ => h ▸ rfl, Std.ExtTreeMap.ext_getElem?⟩

theorem dropStale_merge_comm_iff {total : History} :
    (((total.merge h).dropStale now).merge h').dropStale now' =
      (((total.merge h').dropStale now).merge h).dropStale now' ↔ h.Unordered h' now now' := by
  refine (eq_iff_of_version ?_).trans <| forall_congr' fun target => ?_
  case refine_1 => simp only [dropStale, merge]
  simp only [getElem?_dropStale_merge]
  exact agree_iff

end History

-- A call of `write_history_file_internal` which succeeds, with what it writes.
def Json.write (J : Json) (own : History) (file : Option (List UInt8)) (now : SystemTime) :
    Option (List UInt8) :=
  J.toVecPretty <| ((J.load file).merge own).dropStale now

-- The steps of a call which no other call interrupts.
def Home.writing {ι : Type} (i : ι) (now : SystemTime) : List (Home.Label ι) :=
  [.load i, .merge i, .trim i now, .write i, .rename i]

theorem Home.run_writing {ι : Type} [DecidableEq ι] {J : Json} {own : ι → History} {σ : Home ι}
    {i : ι} {now : SystemTime} {data : List UInt8} (hc : σ.calls i = .start)
    (hw : J.write (own i) σ.file now = some data) :
    σ.run J own (fun _ _ => True) (writing i now) =
      some { σ.set i .returned with file := some data } := by
  unfold Json.write at hw
  simp [writing, Home.run, Home.step, Home.set, hc, hw]

-- What is written is read again.
def Json.Inverse (J : Json) : Prop :=
  ∀ h data, J.toVecPretty h = some data → J.fromStr data = some h

theorem Json.Inverse.load_write {J : Json} (hJ : J.Inverse) {own : History}
    {file : Option (List UInt8)} {now : SystemTime} {data : List UInt8}
    (hw : J.write own file now = some data) :
    J.load (some data) = ((J.load file).merge own).dropStale now := by
  simp [load, hJ _ _ hw]

open History

-- A write keeps the newest entry of each target just if nothing is lost with the newer entries of
-- the file, and two writes leave the same file in both orders just if they are unordered.
theorem Json.Inverse.write_keeps_newest_iff {J : Json} (hJ : J.Inverse) :
    (∀ own file now data, J.write own file now = some data →
      ((∀ target, (J.load file).Remembers own now target ((J.load (some data)).get target)) ↔
        (J.load file).Harmless own now)) ∧
      ∀ own own' file now now' data₁ data₂ data₁' data₂',
        J.write own file now = some data₁ → J.write own' (some data₁) now' = some data₂ →
          J.write own' file now = some data₁' → J.write own (some data₁') now' = some data₂' →
            (J.load (some data₂) = J.load (some data₂') ↔ own.Unordered own' now now') := by
  constructor
  case left =>
    intro own file now data hw
    rw [hJ.load_write hw]
    exact remembers_iff
  case right =>
    intro own own' file now now' data₁ data₂ data₁' data₂' h₁ h₂ h₁' h₂'
    rw [hJ.load_write h₂, hJ.load_write h₁, hJ.load_write h₂', hJ.load_write h₁']
    exact dropStale_merge_comm_iff

-- Serializes the histories which are known, and no others.
def Json.only (known : List History) : Json where
  toVecPretty h := if h ∈ known then some (text h) else none
  fromStr data  := known.find? fun h => text h = data

theorem Json.inverse_only {known : List History}
    (h : ∀ h ∈ known, known.find? (fun h' => text h' = text h) = some h) :
    (Json.only known).Inverse := by
  intro h' data hd
  have ⟨hm, hd⟩ := Option.ite_none_right_eq_some.mp hd
  cases hd
  exact h h' hm

-- Two servers have built the same target, and the one which did so later shuts down first.
def overlapping (late : Bool) : History :=
  if late then History.default.update "a.o" (secs 7) (secs 1700000200)
  else History.default.update "a.o" (secs 5) (secs 1700000100)

def overlappingJson : Json :=
  .only [overlapping false, overlapping true]

theorem inverse_overlappingJson : overlappingJson.Inverse :=
  Json.inverse_only (by decide +kernel)

-- The entry of the server which writes is left, also if the one of the other is in the file.
theorem write_overlapping (late : Bool) :
    overlappingJson.write (overlapping late) none (secs 1700000300) =
        some (Json.text (overlapping late)) ∧
      overlappingJson.write (overlapping late) (some (Json.text (overlapping !late)))
        (secs 1700000300) = some (Json.text (overlapping late)) := by
  cases late <;> decide +kernel

theorem write_keeps_newest_overlapping :
    let J := overlappingJson
    let now := secs 1700000300
    let file late := some (Json.text (overlapping late))
    ((∀ target, (J.load (file true)).Remembers (overlapping false) now target
        ((J.load (file false)).get target)) ↔
      (J.load (file true)).Harmless (overlapping false) now) ∧
    (J.load (file false) = J.load (file true) ↔
      (overlapping true).Unordered (overlapping false) now now) :=
  have h := inverse_overlappingJson.write_keeps_newest_iff
  have ⟨hl, hl'⟩ := write_overlapping true
  have ⟨he, he'⟩ := write_overlapping false
  ⟨h.left _ _ _ _ he', h.right _ _ _ _ _ _ _ _ _ hl he' he hl'⟩

theorem not_harmless : ¬(overlapping true).Harmless (overlapping false) (secs 1700000300) := by
  intro h
  have h := h "a.o" (secs 7, secs 1700000200) (secs 5, secs 1700000100) (by decide +kernel)
    (by decide +kernel) (by decide +kernel) (by decide +kernel)
  exact absurd h.right (by decide +kernel)

-- The second write replaces the newer entry.
theorem write_replaces_newer :
    ¬∀ J : Json, J.Inverse →
      (∀ own file now data, J.write own file now = some data →
        ∀ target, (J.load file).Remembers own now target ((J.load (some data)).get target)) ∧
      ∀ own own' file now now' data₁ data₂ data₁' data₂',
        J.write own file now = some data₁ → J.write own' (some data₁) now' = some data₂ →
          J.write own' file now = some data₁' → J.write own (some data₁') now' = some data₂' →
            J.load (some data₂) = J.load (some data₂') := by
  intro h
  have hw := (write_overlapping false).right
  have h := (h _ inverse_overlappingJson).left _ _ _ _ hw
  rw [inverse_overlappingJson.load_write hw] at h
  have hl : overlappingJson.load (some (Json.text (overlapping true))) = overlapping true := by
    decide +kernel
  exact not_harmless <| hl ▸ remembers_iff.mp h

end SprayCC
