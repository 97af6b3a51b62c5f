import ContextFree.Text.CharClass
import ContextFree.Text.Width.Emoji
import ContextFree.Text.Width.Ligature
import ContextFree.Text.Width.Ranges

/-!
This module contains the number of columns that text takes on a terminal. Most characters take one
column, East Asian wide ones two and combining ones none, but some sequences are displayed as one
emoji or one letter, and a variation selector changes how the character before it is displayed. A
line is therefore read from its end, and each character adds columns in view of what follows it.
-/

namespace ContextFree

namespace Text

/--
The columns that a character takes on its own. Control characters take one.
-/
def charWidth (c : Char) : Nat :=
  if c.toNat = 0x17D8 then 3
  else if inRanges zeroWidthRanges c then 0
  else if inRanges wideRanges c then 2
  else 1

/--
The ways of display that a variation selector can ask for: as an emoji, as text, or, for a quotation
mark, as wide as an ideograph.
-/
inductive Presentation where
  | emoji
  | text
  | fullWidth
  deriving DecidableEq

namespace Presentation

def ofSelector? (c : Char) : Option Presentation :=
  if c.toNat = 0xFE0F then some emoji
  else if c.toNat = 0xFE0E then some text
  else if c.toNat = 0xFE01 then some fullWidth
  else none

/--
A selector for the presentation applies to the character. Enclosed ideographs are as wide in text as
they are as emoji, so no selector for text applies to them.
-/
def allows (presentation : Presentation) (c : Char) : Bool :=
  match presentation with
  | emoji => inRanges variationBaseRanges c
  | text =>
    inRanges variationBaseRanges c && inRanges emojiRanges c &&
      !(0x1F200 ≤ c.toNat ∧ c.toNat ≤ 0x1F2FF)
  | fullWidth => inRanges [(0x2018, 0x2019), (0x201C, 0x201D)] c

end Presentation

/--
The beginning of what follows, as far as characters before it can be displayed as one with it.
-/
inductive Tail where
  /--
  A character that nothing before it is displayed as one with, or the end of the line.
  -/
  | plain
  | ligature (letters : Ligature)
  | emoji (tail : EmojiTail)
  deriving DecidableEq

namespace Tail

def ofChar (c : Char) : Tail :=
  match Ligature.ofChar? c, EmojiTail.ofChar? c with
  | some letters, _ => ligature letters
  | none, some tail => emoji tail
  | none, none => plain

def isEmoji : Tail → Bool
  | emoji _ => true
  | _ => false

/--
The columns that a character adds before a tail, and the tail that it makes.
-/
def push (tail : Tail) (c : Char) : Int × Tail :=
  match tail with
  | plain => (charWidth c, ofChar c)
  | ligature letters =>
    match letters.pass? c, letters.extend? c with
    | some passed, _ => (0, ligature passed)
    | none, some (columns, some extended) => (columns, ligature extended)
    | none, some (columns, none) => (columns, plain)
    | none, none => (charWidth c, ofChar c)
  | emoji tail =>
    match tail.extend? c with
    | some (columns, extended) => (columns, emoji extended)
    | none => (charWidth c, ofChar c)

/--
What is left of the tail for a character before a variation selector that does not apply to it.
-/
def pastSelector : Tail → Tail
  | ligature letters => if letters.allowsSelector then ligature letters else plain
  | _ => plain

end Tail

/--
What follows a character: the presentations that variation selectors right behind it ask for, and
the tail.
-/
structure Following where
  presentations : List Presentation
  tail : Tail
  deriving DecidableEq

namespace Following

def lineEnd : Following where
  presentations := []
  tail := .plain

/--
A variation selector before what follows. Before letters that it does not part from others it adds
to the selectors that are there, of which one for an emoji counts only for the character right
before it. An emoji is parted from the characters before it, except that one selector may ask for an
emoji before a joiner.
-/
def select (following : Following) (presentation : Presentation) : Following :=
  match following.tail with
  | .plain => ⟨[presentation], .plain⟩
  | .ligature letters =>
    if letters.allowsSelector then
      ⟨presentation :: following.presentations.filter (· ≠ .emoji), .ligature letters⟩
    else ⟨[presentation], .plain⟩
  | .emoji tail =>
    if presentation = .emoji ∧ following.presentations = [] ∧ tail.allowsSelector then
      ⟨[presentation], .emoji tail⟩
    else ⟨[presentation], .plain⟩

/--
A character that is displayed as a variation selector behind it asks for. An emoji that is joined to
the one behind the selector takes no column.
-/
def present (following : Following) : Presentation → Int × Following
  | .emoji => (if following.tail.isEmoji then 0 else 2, ⟨[], .emoji .emoji⟩)
  | .text => (1, lineEnd)
  | .fullWidth => (2, lineEnd)

/--
A character that no variation selector applies to.
-/
def pushPlain (following : Following) (c : Char) : Int × Following :=
  let tail := if following.presentations = [] then following.tail else following.tail.pastSelector
  let (columns, tail) := tail.push c
  (columns, ⟨[], tail⟩)

/--
The columns that a character adds before what follows it, and what follows the character before it.
-/
def push (following : Following) (c : Char) : Int × Following :=
  match Presentation.ofSelector? c, following.presentations.find? (·.allows c) with
  | some presentation, _ => (0, following.select presentation)
  | none, some presentation => following.present presentation
  | none, none => following.pushPlain c

end Following

/--
The columns that a line of text takes, added up from its end.
-/
def width (line : List Char) : Nat :=
  (line.foldr
    (fun c (columns, following) =>
      let (added, following) := following.push c
      (columns + added, following))
    ((0 : Int), Following.lineEnd)).1.toNat

@[simp]
theorem width_nil : width [] = 0 := rfl

theorem charWidth_of_ofSelector? {c : Char} {presentation : Presentation}
    (h : Presentation.ofSelector? c = some presentation) : charWidth c = 0 := by
  have : c.toNat = 0xFE0F ∨ c.toNat = 0xFE0E ∨ c.toNat = 0xFE01 := by
    simp only [Presentation.ofSelector?] at h
    grind
  rcases this with hc | hc | hc <;> simp only [charWidth, inRanges, hc] <;> decide

theorem width_singleton (c : Char) : width [c] = charWidth c := by
  cases h : Presentation.ofSelector? c with
  | some presentation =>
    rw [charWidth_of_ofSelector? h]
    simp [width, Following.push, h]
  | none =>
    simp [width, Following.push, Following.pushPlain, Following.lineEnd, Tail.push, h]

end Text

end ContextFree
