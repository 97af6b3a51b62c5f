import ContextFree.Text.CharClass
import ContextFree.Text.Width.Ranges

/-!
This module contains letters that are displayed as one with the letters before them, and so take
fewer columns than they do apart. A line is read from its end, so how a letter is displayed is known
from the letters behind it.
-/

namespace ContextFree

namespace Text

/--
Letters that can be displayed as one with the letters before them. `joined` tells whether a zero
width joiner stands before them already.
-/
inductive Ligature where
  | alef
  | lamed (joined : Bool)
  | ya (joined : Bool)
  /--
  A Buginese ya with a joiner and the vowel sign i before it.
  -/
  | signJoinedYa
  | tifinagh (joined : Bool)
  /--
  A Tifinagh consonant with the consonant joiner of that script before it.
  -/
  | linkedTifinagh
  /--
  A Lisu tone letter that can be the second of two.
  -/
  | lisuTone
  | turkicI (joined : Bool)
  /--
  A Khmer letter that can be written below another one.
  -/
  | khmer
  | kiratE
  /--
  The Kirat Rai vowel sign ai, which is a double e.
  -/
  | kiratAi
  deriving DecidableEq

def alefRanges : List (Nat × Nat) :=
  [(0x0622, 0x0623), (0x0625, 0x0625), (0x0627, 0x0627), (0x0671, 0x0673), (0x0675, 0x0675),
   (0x0773, 0x0774), (0x0870, 0x0882)]

def lamRanges : List (Nat × Nat) :=
  [(0x0644, 0x0644), (0x06B5, 0x06B8), (0x076A, 0x076A), (0x08A6, 0x08A6), (0x08C7, 0x08C7)]

/--
The Khmer letters that can be written below another one.
-/
def khmerRanges : List (Nat × Nat) :=
  [(0x1780, 0x1782), (0x1784, 0x1787), (0x1789, 0x178C), (0x178E, 0x1793), (0x1795, 0x1798),
   (0x179B, 0x179D), (0x17A0, 0x17A0), (0x17A2, 0x17A2), (0x17A7, 0x17A7), (0x17AB, 0x17AC),
   (0x17AF, 0x17AF)]

def tifinaghRanges : List (Nat × Nat) :=
  [(0x2D31, 0x2D65), (0x2D6F, 0x2D6F)]

/--
Characters that are not displayed and part no letters: the grapheme joiner, the inherent vowels of
Khmer, and the variation selectors.
-/
def invisibleRanges : List (Nat × Nat) :=
  [(0x034F, 0x034F), (0x17B4, 0x17B5), (0x180B, 0x180D), (0x180F, 0x180F), (0xFE00, 0xFE0F),
   (0xE0100, 0xE01EF)]

/--
The character takes no column and lets the Arabic letters around it join.
-/
def isTransparent (c : Char) : Bool :=
  inRanges zeroWidthRanges c && !inRanges nonTransparentRanges c

namespace Ligature

def ofChar? (c : Char) : Option Ligature :=
  if inRanges alefRanges c then some alef
  else if c.toNat = 0x05DC then some (lamed false)
  else if c.toNat = 0x1A10 then some (ya false)
  else if inRanges tifinaghRanges c then some (tifinagh false)
  else if c.toNat = 0xA4FC ∨ c.toNat = 0xA4FD then some lisuTone
  else if c.toNat = 0x10C03 then some (turkicI false)
  else if inRanges khmerRanges c then some khmer
  else if c.toNat = 0x16D67 then some kiratE
  else if c.toNat = 0x16D68 then some kiratAi
  else none

/--
A variation selector may stand before the letters without parting them from the letters before it.
-/
def allowsSelector : Ligature → Bool
  | kiratE | kiratAi => false
  | _ => true

def join : Ligature → Ligature
  | lamed _ => lamed true
  | ya _ => ya true
  | tifinagh _ => tifinagh true
  | turkicI _ => turkicI true
  | ligature => ligature

/--
The letters with a character before them that is not displayed and does not part them from the
letters before it.
-/
def pass? (ligature : Ligature) (c : Char) : Option Ligature :=
  match ligature with
  | alef => if isTransparent c then some alef else none
  | kiratE | kiratAi => none
  | _ =>
    if c.toNat = 0x200D then some ligature.join
    else if inRanges invisibleRanges c then some ligature
    else none

/--
The columns that a letter adds to the letters it is displayed as one with, and the letters they are
then, if they can be displayed as one with further ones. A negative number takes back a column of
the letters behind.
-/
def extend? (ligature : Ligature) (c : Char) : Option (Int × Option Ligature) :=
  match ligature with
  | alef => if inRanges lamRanges c then some (0, none) else none
  | lamed joined => if joined ∧ c.toNat = 0x05D0 then some (0, none) else none
  | ya joined => if joined ∧ c.toNat = 0x1A17 then some (0, signJoinedYa) else none
  | signJoinedYa => if c.toNat = 0x1A15 then some (0, none) else none
  | tifinagh joined =>
    if c.toNat = 0x2D7F then some (1, linkedTifinagh)
    else if joined ∧ inRanges tifinaghRanges c then some (0, none)
    else none
  | linkedTifinagh => if inRanges tifinaghRanges c then some (-1, none) else none
  | lisuTone => if 0xA4F8 ≤ c.toNat ∧ c.toNat ≤ 0xA4FB then some (0, none) else none
  | turkicI joined => if joined ∧ c.toNat = 0x10C32 then some (0, none) else none
  | khmer => if c.toNat = 0x17D2 then some (-1, none) else none
  | kiratE =>
    if c.toNat = 0x16D63 ∨ c.toNat = 0x16D69 then some (0, none)
    else if c.toNat = 0x16D67 then some (0, kiratAi)
    else if c.toNat = 0x16D68 then some (1, kiratE)
    else none
  | kiratAi => if c.toNat = 0x16D63 then some (0, none) else none

end Ligature

end Text

end ContextFree
