import Mathlib.Algebra.Group.Nat.Defs
import Mathlib.Logic.Function.Basic
import SprayCC.Ipc.Message

-- The file by which a server tells the clients in its directory how to call it.

namespace SprayCC

-- The serialization of values, with the failures of both directions.
structure Toml (α : Type) where
  toString : α → Option String
  fromStr  : String → Option α

-- What is made of this value is read as it again.
def Toml.Undoes {α : Type} (T : Toml α) (a : α) : Prop :=
  ∀ text, T.toString a = some text → T.fromStr text = some a

section Files

def utf8 (text : String) : List UInt8 :=
  text.toUTF8.data.toList

def readToString (content : List UInt8) : Option String :=
  String.fromUTF8? ⟨content.toArray⟩

-- What is in a file after a write at its beginning, if opening it has not truncated it.
def overwrite (old new : List UInt8) : List UInt8 :=
  new ++ old.drop new.length

theorem readToString_utf8 {text : String} : readToString (utf8 text) = some text := by
  have hb : (⟨(utf8 text).toArray⟩ : ByteArray) = text.toByteArray := by simp [utf8]
  rw [readToString, hb]
  exact dif_pos text.isValidUTF8

theorem overwrite_eq_iff {old new : List UInt8} :
    overwrite old new = new ↔ old.length ≤ new.length := by
  simp [overwrite]

end Files

-- The components of a path, the last one first.
abbrev Path := List String

-- The files there are, and whether the user may open them.
structure FileSystem where
  contents : Path → Option (List UInt8)
  allows   : Path → Bool

inductive ContactError
  | open
  | unwrap

def connectFile : String :=
  ".spraycc-server"

def writeServerContactInfo (T : Toml CallMe) (fs : FileSystem) (dir : Path) (callme : CallMe) :
    Except ContactError FileSystem :=
  let path := connectFile :: dir
  if fs.allows path then
    match T.toString callme with
    | some config =>
      let old := (fs.contents path).getD []
      .ok { fs with
        contents := Function.update fs.contents path (some (overwrite old (utf8 config))) }
    | none => .error .unwrap
  else .error .open

def deserializeContactInfo (T : Toml CallMe) (content : List UInt8) : Option CallMe := do
  T.fromStr (← readToString content)

def readServerContactInfoFrom (T : Toml CallMe) (fs : FileSystem) (dir : Path) : Option CallMe :=
  match fs.contents (connectFile :: dir) with
  | some content =>
    if fs.allows (connectFile :: dir) then deserializeContactInfo T content else none
  | none =>
    match dir with
    | []          => none
    | _ :: parent => readServerContactInfoFrom T fs parent

variable {T : Toml CallMe} {fs fs' : FileSystem} {dir : Path} {callme : CallMe} {text : String}

theorem contents_of_write (hs : T.toString callme = some text)
    (hw : writeServerContactInfo T fs dir callme = .ok fs') :
    fs'.contents (connectFile :: dir) =
        some (overwrite ((fs.contents (connectFile :: dir)).getD []) (utf8 text)) ∧
      fs'.allows (connectFile :: dir) := by
  unfold writeServerContactInfo at hw
  dsimp only at hw
  split at hw
  case isFalse => cases hw
  case isTrue ha =>
    simp only [hs, Except.ok.injEq] at hw
    subst hw
    exact ⟨Function.update_self .., ha⟩

theorem read_of_contents (hT : T.Undoes callme) (hs : T.toString callme = some text)
    (hc : fs.contents (connectFile :: dir) = some (utf8 text))
    (ha : fs.allows (connectFile :: dir)) :
    readServerContactInfoFrom T fs dir = some callme := by
  unfold readServerContactInfoFrom
  simp [hc, ha, deserializeContactInfo, readToString_utf8, hT _ hs]

-- What is written is all that is in the file, and so is read again, just if the file was no longer
-- before.
theorem write_read_contact_iff (hT : T.Undoes callme) (hs : T.toString callme = some text)
    (hw : writeServerContactInfo T fs dir callme = .ok fs') :
    fs'.contents (connectFile :: dir) = some (utf8 text) ∧
        readServerContactInfoFrom T fs' dir = some callme ↔
      ∀ old, fs.contents (connectFile :: dir) = some old → old.length ≤ (utf8 text).length := by
  have ⟨hc, ha⟩ := contents_of_write hs hw
  have ho : fs'.contents (connectFile :: dir) = some (utf8 text) ↔
      ((fs.contents (connectFile :: dir)).getD []).length ≤ (utf8 text).length := by
    rw [hc, Option.some.injEq, overwrite_eq_iff]
  rw [and_iff_left_of_imp fun hc => read_of_contents hT hs hc ha, ho]
  cases fs.contents (connectFile :: dir) <;> simp

-- The text which is written for a server whose address needs no escapes.
def contactText (callme : CallMe) : String :=
  s!"addr = \"{callme.addr}\"\naccess_code = {callme.accessCode.toNat}\n"

-- Every code is written, but as the integers of the format are signed, a code from 2^63 on is not
-- read again.
def contactToml (known : List CallMe) : Toml CallMe where
  toString callme := some (contactText callme)
  fromStr text    := known.find? fun callme =>
    callme.accessCode.toNat < 2 ^ 63 ∧ contactText callme = text

-- A server which was killed, and one which is started after it in the same directory.
def killed : CallMe :=
  ⟨"127.0.0.1:45678", 8764320⟩

def restarted : CallMe :=
  ⟨"127.0.0.1:45680", 42⟩

-- The one which was killed has left its file in one directory, and one with a shorter code has left
-- its own in another.
def leftBehind : FileSystem where
  contents path :=
    if path = [connectFile, "src"] then some (utf8 (contactText killed))
    else if path = [connectFile, "home"] then
      some (utf8 (contactText { restarted with accessCode := 6 }))
    else none
  allows _      := true

theorem undoes_contactToml (hl : callme.accessCode.toNat < 2 ^ 63) :
    (contactToml [callme]).Undoes callme := by
  intro text hs
  cases hs
  simpa [contactToml] using hl

theorem write_leftBehind (dir : Path) :
    ∃ fs', writeServerContactInfo (contactToml [restarted]) leftBehind dir restarted = .ok fs' := by
  unfold writeServerContactInfo
  exact ⟨_, rfl⟩

theorem write_read_contact_restarted :
    ∃ fs', writeServerContactInfo (contactToml [restarted]) leftBehind ["home"] restarted =
        .ok fs' ∧
      leftBehind.contents [connectFile, "home"] ≠ none ∧
      fs'.contents [connectFile, "home"] = some (utf8 (contactText restarted)) ∧
      readServerContactInfoFrom (contactToml [restarted]) fs' ["home"] = some restarted := by
  have ⟨fs', hw⟩ := write_leftBehind ["home"]
  have h := write_read_contact_iff (undoes_contactToml (by decide)) rfl hw
  refine ⟨fs', hw, by decide +kernel, h.mpr fun old ho => ?_⟩
  cases ho
  decide +kernel

-- The end of the longer text is still there.
theorem write_contact_leftBehind :
    ¬∀ (T : Toml CallMe) fs fs' dir callme text, T.Undoes callme →
      callme.accessCode.toNat < 2 ^ 63 → T.toString callme = some text →
        writeServerContactInfo T fs dir callme = .ok fs' →
          fs'.contents (connectFile :: dir) = some (utf8 text) ∧
            readServerContactInfoFrom T fs' dir = some callme := by
  intro h
  have ⟨fs', hw⟩ := write_leftBehind ["src"]
  have hc := (h _ _ _ _ _ _ (undoes_contactToml (by decide)) (by decide) rfl hw).left
  rw [(contents_of_write rfl hw).left, Option.some.injEq, overwrite_eq_iff] at hc
  exact absurd hc (by decide +kernel)

end SprayCC
