import ContextFree.Text.CharClass
import ContextFree.Text.Width.Ranges

/-!
This module contains sequences of characters that are displayed as one emoji: with a skin tone, as a
flag, or joined to another emoji. A line is read from its end, so how a character is displayed is
known from the characters behind it.
-/

namespace ContextFree

namespace Text

def isSkinTone (c : Char) : Bool :=
  0x1F3FB ≤ c.toNat ∧ c.toNat ≤ 0x1F3FF

/--
The character is a regional indicator, two of which are displayed as a flag.
-/
def isIndicator (c : Char) : Bool :=
  0x1F1E6 ≤ c.toNat ∧ c.toNat ≤ 0x1F1FF

/--
The character is a letter in the name of a flag that is spelled with tags.
-/
def isTagLetter (c : Char) : Bool :=
  0xE0061 ≤ c.toNat ∧ c.toNat ≤ 0xE007A

/--
The character is a digit in the name of a flag that is spelled with tags.
-/
def isTagDigit (c : Char) : Bool :=
  0xE0030 ≤ c.toNat ∧ c.toNat ≤ 0xE0039

/--
The beginning of an emoji that characters before it can belong to.
-/
inductive EmojiTail where
  | emoji
  | skinTone
  | indicator
  | indicators
  | joiner
  | keycapJoiner
  | indicatorJoiner
  /--
  An even number of regional indicators before a joiner, the last two of which are a flag.
  -/
  | evenIndicatorsJoiner
  /--
  An odd number of regional indicators before a joiner, three or more.
  -/
  | oddIndicatorsJoiner
  /--
  The end of a name in tags before a joiner: letters, or digits with letters behind them.
  -/
  | tagsJoiner (letters digits : Nat)
  deriving DecidableEq

namespace EmojiTail

/--
The emoji that a character is the beginning of on its own.
-/
def ofChar? (c : Char) : Option EmojiTail :=
  if inRanges emojiRanges c then some emoji
  else if isSkinTone c then some skinTone
  else if isIndicator c then some indicator
  else none

/--
A joiner before the characters joins an emoji to them.
-/
def allowsJoiner : EmojiTail → Bool
  | emoji | skinTone | indicators | evenIndicatorsJoiner | oddIndicatorsJoiner => true
  | _ => false

/--
A variation selector for emoji before the characters leaves the emoji before it joined to them.
-/
def allowsSelector : EmojiTail → Bool
  | joiner | keycapJoiner => true
  | _ => false

/--
The columns that a character adds to the emoji that it belongs to, and what it is then the beginning
of. Regional indicators are paired from the first one on, so each one before those of a joiner
decides anew whether the last two of them are a flag, which is joined and takes no column.
-/
def extend? (tail : EmojiTail) (c : Char) : Option (Int × EmojiTail) :=
  if c.toNat = 0x200D then
    if tail.allowsJoiner then some (0, joiner) else none
  else
    match tail with
    | emoji | keycapJoiner => none
    | skinTone => if inRanges modifierBaseRanges c then some (0, emoji) else none
    | indicator | indicators => if isIndicator c then some (1, indicators) else none
    | joiner =>
      if c.toNat = 0x20E3 then some (0, keycapJoiner)
      else if isIndicator c then some (1, indicatorJoiner)
      else if isSkinTone c then some (0, skinTone)
      else if c.toNat = 0xE007F then some (0, tagsJoiner 0 0)
      else if inRanges emojiRanges c then some (0, emoji)
      else none
    | indicatorJoiner | oddIndicatorsJoiner =>
      if isIndicator c then some (-1, evenIndicatorsJoiner) else none
    | evenIndicatorsJoiner => if isIndicator c then some (3, oddIndicatorsJoiner) else none
    | tagsJoiner letters digits =>
      if isTagLetter c ∧ digits = 0 ∧ letters < 6 then some (0, tagsJoiner (letters + 1) 0)
      else if isTagDigit c ∧ (digits = 0 ∧ letters ≤ 4 ∨ 0 < digits ∧ digits < 3) then
        some (0, tagsJoiner letters (digits + 1))
      else if c.toNat = 0x1F3F4 ∧ (digits = 0 ∧ 3 ≤ letters ∨ digits = 3) then some (0, emoji)
      else none

end EmojiTail

end Text

end ContextFree
