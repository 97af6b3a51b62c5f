/-!
This module contains readers, which take what they read off the front of a text, and the ways in which
they are put together. A reader that fails has taken nothing off, so that another one can begin at the
same place.
-/

namespace ContextFree

namespace Text

/--
Why a reader fails: what it has expected to find, and whether that rules out all other ways of reading
the text.
-/
structure ReadFailure where
  expected : List String
  final : Bool
  deriving DecidableEq, Repr

/--
A reader yields what it has read together with the rest of the text.
-/
abbrev Reader (α : Type) : Type :=
  StateT (List Char) (Except ReadFailure) α

namespace Reader

variable {α : Type}

def fail : Reader α := fun _ =>
  .error ⟨[], false⟩

/--
Characters as long as they are to be kept, which have to be as many as `least`.
-/
def takeWhile (least : Nat) (keep : Char → Bool) : Reader (List Char) := fun text =>
  let taken := text.takeWhile keep
  if taken.length < least then fail text else .ok (taken, text.dropWhile keep)

def literal (chars : List Char) : Reader (List Char) := fun text =>
  if chars <+: text then .ok (chars, text.drop chars.length) else fail text

/--
What stands before the first copy of the characters, of which there has to be one. The copy is left in
the rest.
-/
def takeUntil (chars : List Char) : Reader (List Char)
  | [] => if chars = [] then .ok ([], []) else fail []
  | c :: rest =>
    if chars <+: c :: rest then
      .ok ([], c :: rest)
    else
      (fun read => (c :: read.1, read.2)) <$> takeUntil chars rest

/--
Read again and again, until that fails. What has been read before stays read then, unless the failure is
final. A reader that does not take anything off would never come to an end, which is a final failure.
-/
def many (reader : Reader α) : Reader (List α) := fun text =>
  match reader text with
  | .error failure => if failure.final then .error failure else .ok ([], text)
  | .ok (a, rest) =>
    if _ : rest.length < text.length then
      (fun read => (a :: read.1, read.2)) <$> many reader rest
    else
      .error ⟨[], true⟩
termination_by text => text.length

def atEnd : Reader Unit := fun text =>
  if text = [] then .ok ((), []) else fail text

/--
Tell what is expected where the reader fails.
-/
def expecting (reader : Reader α) (what : String) : Reader α := fun text =>
  match reader text with
  | .error failure => .error { failure with expected := failure.expected ++ [what] }
  | .ok read => .ok read

/--
Read a text as a whole.
-/
def readAll (reader : Reader α) (text : List Char) : Except ReadFailure α :=
  (reader <* atEnd).run' text

variable {β : Type} {reader : Reader α} {next : α → Reader β} {text rest : List Char} {a : α}
  {failure : ReadFailure}

theorem bind_of_ok (h : reader text = .ok (a, rest)) : (reader >>= next) text = next a rest := by
  change (reader text >>= fun read => next read.1 read.2) = _
  rw [h]
  rfl

theorem bind_of_error (h : reader text = .error failure) :
    (reader >>= next) text = .error failure := by
  change (reader text >>= fun read => next read.1 read.2) = _
  rw [h]
  rfl

theorem expecting_of_ok (h : reader text = .ok (a, rest)) (what : String) :
    reader.expecting what text = .ok (a, rest) := by
  rw [expecting, h]

theorem expecting_of_error (h : reader text = .error failure) (what : String) :
    reader.expecting what text =
      .error { failure with expected := failure.expected ++ [what] } := by
  rw [expecting, h]

theorem readAll_of_ok (h : reader text = .ok (a, [])) : reader.readAll text = .ok a := by
  change (·.1) <$> (reader >>= fun a => atEnd >>= fun _ => pure a) text = _
  rw [bind_of_ok h]
  rfl

theorem readAll_of_error (h : reader text = .error failure) :
    reader.readAll text = .error failure := by
  change (·.1) <$> (reader >>= fun a => atEnd >>= fun _ => pure a) text = _
  rw [bind_of_error h]
  rfl

end Reader

end Text

end ContextFree
