import ContextFree.OrderedSet.Basic

/-!
This module contains the enumeration of the subsets of an ordered set. Subsets are numbered by the
binary numerals of their elements' positions: the subset with the number `mask` has the element at
position `i` just if bit `i` of `mask` is set. So the empty set comes first and the whole set last.
-/

namespace ContextFree

namespace OrderedSet

universe u

variable {α : Type u}

/--
What makes a set too large for its subsets to be enumerated.
-/
inductive TooLarge where
  /--
  The set has as many elements as a machine word has bits, or more.
  -/
  | overWord (size : Nat)
  /--
  The list of the subsets would be longer than a list can be.
  -/
  | overCapacity
  deriving DecidableEq, Repr

/--
What is reported about a set that is too large.
-/
def TooLarge.message : TooLarge → String
  | overWord size => "power set of " ++ toString size ++ " elements is not enumerable"
  | overCapacity => "capacity overflow"

/--
The number of bits of the words that subsets are numbered with.
-/
def maskBits : Nat := 64

/--
The bytes that each set takes in a list of sets, in which it is made of nine machine words: three for
its elements in their order, four for the table in which they are looked up, and two for the keys that
the table is hashed with. The elements themselves are kept elsewhere.
-/
def setBytes : Nat := 9 * 8

/--
The bytes that a list can take, as many as a signed machine word can count.
-/
def maxListBytes : Nat := (1 <<< 63) - 1

/--
The elements at the positions whose bit is set in `mask`, in the order of the set.
-/
def subset (s : OrderedSet α) (mask : Nat) : OrderedSet α where
  toList := (s.toList.zipIdx.filter fun entry => mask.testBit entry.2).map Prod.fst
  nodup := by
    have positions : (s.toList.zipIdx.map Prod.fst).Nodup := by
      rw [List.zipIdx_map_fst]
      exact s.nodup
    exact positions.sublist (List.filter_sublist.map Prod.fst)

/--
All subsets, by increasing number. The empty set is first and the whole set is last. There has to be
room for all of them before the first one is made.
-/
def powerSet (s : OrderedSet α) : Except TooLarge (List (OrderedSet α)) :=
  if s.size < maskBits then
    let count := 1 <<< s.size
    if count * setBytes ≤ maxListBytes then
      .ok ((List.range count).map s.subset)
    else
      .error .overCapacity
  else
    .error (.overWord s.size)

end OrderedSet

end ContextFree
