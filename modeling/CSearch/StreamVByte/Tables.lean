import Mathlib.Tactic

set_option autoImplicit false

/-! # The decoding tables of StreamVByte

`streamvbytedelta.c` decodes four values at a time. A key byte holds the lengths of four
values, two bits each, least significant pair first: the value of a pair is the number of
bytes of the value minus one. `lengthTable` gives, for every key byte, how many data bytes
the four values take together; `shuffleTable` gives the sixteen control bytes that spread
these data bytes over four 32-bit lanes. An entry `-1` of the source is the byte `255`, which
makes the shuffle instruction write a zero.

Both tables are copied from the source. `lengthTable_eq` and `shuffleTable_eq` say what is in
them.
-/

namespace CSearch.StreamVByte

def lengthTable : List Nat :=
  [4, 5, 6, 7, 5, 6, 7, 8, 6, 7, 8, 9, 7, 8, 9, 10, 5, 6, 7, 8, 6, 7, 8, 9, 7, 8, 9, 10, 8, 9,
   10, 11, 6, 7, 8, 9, 7, 8, 9, 10, 8, 9, 10, 11, 9, 10, 11, 12, 7, 8, 9, 10, 8, 9, 10, 11, 9,
   10, 11, 12, 10, 11, 12, 13, 5, 6, 7, 8, 6, 7, 8, 9, 7, 8, 9, 10, 8, 9, 10, 11, 6, 7, 8, 9, 7,
   8, 9, 10, 8, 9, 10, 11, 9, 10, 11, 12, 7, 8, 9, 10, 8, 9, 10, 11, 9, 10, 11, 12, 10, 11, 12,
   13, 8, 9, 10, 11, 9, 10, 11, 12, 10, 11, 12, 13, 11, 12, 13, 14, 6, 7, 8, 9, 7, 8, 9, 10, 8,
   9, 10, 11, 9, 10, 11, 12, 7, 8, 9, 10, 8, 9, 10, 11, 9, 10, 11, 12, 10, 11, 12, 13, 8, 9, 10,
   11, 9, 10, 11, 12, 10, 11, 12, 13, 11, 12, 13, 14, 9, 10, 11, 12, 10, 11, 12, 13, 11, 12, 13,
   14, 12, 13, 14, 15, 7, 8, 9, 10, 8, 9, 10, 11, 9, 10, 11, 12, 10, 11, 12, 13, 8, 9, 10, 11, 9,
   10, 11, 12, 10, 11, 12, 13, 11, 12, 13, 14, 9, 10, 11, 12, 10, 11, 12, 13, 11, 12, 13, 14, 12,
   13, 14, 15, 10, 11, 12, 13, 11, 12, 13, 14, 12, 13, 14, 15, 13, 14, 15, 16]

def shuffleTable : List (List Nat) := [
  [0, 255, 255, 255, 1, 255, 255, 255, 2, 255, 255, 255, 3, 255, 255, 255],
  [0, 1, 255, 255, 2, 255, 255, 255, 3, 255, 255, 255, 4, 255, 255, 255],
  [0, 1, 2, 255, 3, 255, 255, 255, 4, 255, 255, 255, 5, 255, 255, 255],
  [0, 1, 2, 3, 4, 255, 255, 255, 5, 255, 255, 255, 6, 255, 255, 255],
  [0, 255, 255, 255, 1, 2, 255, 255, 3, 255, 255, 255, 4, 255, 255, 255],
  [0, 1, 255, 255, 2, 3, 255, 255, 4, 255, 255, 255, 5, 255, 255, 255],
  [0, 1, 2, 255, 3, 4, 255, 255, 5, 255, 255, 255, 6, 255, 255, 255],
  [0, 1, 2, 3, 4, 5, 255, 255, 6, 255, 255, 255, 7, 255, 255, 255],
  [0, 255, 255, 255, 1, 2, 3, 255, 4, 255, 255, 255, 5, 255, 255, 255],
  [0, 1, 255, 255, 2, 3, 4, 255, 5, 255, 255, 255, 6, 255, 255, 255],
  [0, 1, 2, 255, 3, 4, 5, 255, 6, 255, 255, 255, 7, 255, 255, 255],
  [0, 1, 2, 3, 4, 5, 6, 255, 7, 255, 255, 255, 8, 255, 255, 255],
  [0, 255, 255, 255, 1, 2, 3, 4, 5, 255, 255, 255, 6, 255, 255, 255],
  [0, 1, 255, 255, 2, 3, 4, 5, 6, 255, 255, 255, 7, 255, 255, 255],
  [0, 1, 2, 255, 3, 4, 5, 6, 7, 255, 255, 255, 8, 255, 255, 255],
  [0, 1, 2, 3, 4, 5, 6, 7, 8, 255, 255, 255, 9, 255, 255, 255],
  [0, 255, 255, 255, 1, 255, 255, 255, 2, 3, 255, 255, 4, 255, 255, 255],
  [0, 1, 255, 255, 2, 255, 255, 255, 3, 4, 255, 255, 5, 255, 255, 255],
  [0, 1, 2, 255, 3, 255, 255, 255, 4, 5, 255, 255, 6, 255, 255, 255],
  [0, 1, 2, 3, 4, 255, 255, 255, 5, 6, 255, 255, 7, 255, 255, 255],
  [0, 255, 255, 255, 1, 2, 255, 255, 3, 4, 255, 255, 5, 255, 255, 255],
  [0, 1, 255, 255, 2, 3, 255, 255, 4, 5, 255, 255, 6, 255, 255, 255],
  [0, 1, 2, 255, 3, 4, 255, 255, 5, 6, 255, 255, 7, 255, 255, 255],
  [0, 1, 2, 3, 4, 5, 255, 255, 6, 7, 255, 255, 8, 255, 255, 255],
  [0, 255, 255, 255, 1, 2, 3, 255, 4, 5, 255, 255, 6, 255, 255, 255],
  [0, 1, 255, 255, 2, 3, 4, 255, 5, 6, 255, 255, 7, 255, 255, 255],
  [0, 1, 2, 255, 3, 4, 5, 255, 6, 7, 255, 255, 8, 255, 255, 255],
  [0, 1, 2, 3, 4, 5, 6, 255, 7, 8, 255, 255, 9, 255, 255, 255],
  [0, 255, 255, 255, 1, 2, 3, 4, 5, 6, 255, 255, 7, 255, 255, 255],
  [0, 1, 255, 255, 2, 3, 4, 5, 6, 7, 255, 255, 8, 255, 255, 255],
  [0, 1, 2, 255, 3, 4, 5, 6, 7, 8, 255, 255, 9, 255, 255, 255],
  [0, 1, 2, 3, 4, 5, 6, 7, 8, 9, 255, 255, 10, 255, 255, 255],
  [0, 255, 255, 255, 1, 255, 255, 255, 2, 3, 4, 255, 5, 255, 255, 255],
  [0, 1, 255, 255, 2, 255, 255, 255, 3, 4, 5, 255, 6, 255, 255, 255],
  [0, 1, 2, 255, 3, 255, 255, 255, 4, 5, 6, 255, 7, 255, 255, 255],
  [0, 1, 2, 3, 4, 255, 255, 255, 5, 6, 7, 255, 8, 255, 255, 255],
  [0, 255, 255, 255, 1, 2, 255, 255, 3, 4, 5, 255, 6, 255, 255, 255],
  [0, 1, 255, 255, 2, 3, 255, 255, 4, 5, 6, 255, 7, 255, 255, 255],
  [0, 1, 2, 255, 3, 4, 255, 255, 5, 6, 7, 255, 8, 255, 255, 255],
  [0, 1, 2, 3, 4, 5, 255, 255, 6, 7, 8, 255, 9, 255, 255, 255],
  [0, 255, 255, 255, 1, 2, 3, 255, 4, 5, 6, 255, 7, 255, 255, 255],
  [0, 1, 255, 255, 2, 3, 4, 255, 5, 6, 7, 255, 8, 255, 255, 255],
  [0, 1, 2, 255, 3, 4, 5, 255, 6, 7, 8, 255, 9, 255, 255, 255],
  [0, 1, 2, 3, 4, 5, 6, 255, 7, 8, 9, 255, 10, 255, 255, 255],
  [0, 255, 255, 255, 1, 2, 3, 4, 5, 6, 7, 255, 8, 255, 255, 255],
  [0, 1, 255, 255, 2, 3, 4, 5, 6, 7, 8, 255, 9, 255, 255, 255],
  [0, 1, 2, 255, 3, 4, 5, 6, 7, 8, 9, 255, 10, 255, 255, 255],
  [0, 1, 2, 3, 4, 5, 6, 7, 8, 9, 10, 255, 11, 255, 255, 255],
  [0, 255, 255, 255, 1, 255, 255, 255, 2, 3, 4, 5, 6, 255, 255, 255],
  [0, 1, 255, 255, 2, 255, 255, 255, 3, 4, 5, 6, 7, 255, 255, 255],
  [0, 1, 2, 255, 3, 255, 255, 255, 4, 5, 6, 7, 8, 255, 255, 255],
  [0, 1, 2, 3, 4, 255, 255, 255, 5, 6, 7, 8, 9, 255, 255, 255],
  [0, 255, 255, 255, 1, 2, 255, 255, 3, 4, 5, 6, 7, 255, 255, 255],
  [0, 1, 255, 255, 2, 3, 255, 255, 4, 5, 6, 7, 8, 255, 255, 255],
  [0, 1, 2, 255, 3, 4, 255, 255, 5, 6, 7, 8, 9, 255, 255, 255],
  [0, 1, 2, 3, 4, 5, 255, 255, 6, 7, 8, 9, 10, 255, 255, 255],
  [0, 255, 255, 255, 1, 2, 3, 255, 4, 5, 6, 7, 8, 255, 255, 255],
  [0, 1, 255, 255, 2, 3, 4, 255, 5, 6, 7, 8, 9, 255, 255, 255],
  [0, 1, 2, 255, 3, 4, 5, 255, 6, 7, 8, 9, 10, 255, 255, 255],
  [0, 1, 2, 3, 4, 5, 6, 255, 7, 8, 9, 10, 11, 255, 255, 255],
  [0, 255, 255, 255, 1, 2, 3, 4, 5, 6, 7, 8, 9, 255, 255, 255],
  [0, 1, 255, 255, 2, 3, 4, 5, 6, 7, 8, 9, 10, 255, 255, 255],
  [0, 1, 2, 255, 3, 4, 5, 6, 7, 8, 9, 10, 11, 255, 255, 255],
  [0, 1, 2, 3, 4, 5, 6, 7, 8, 9, 10, 11, 12, 255, 255, 255],
  [0, 255, 255, 255, 1, 255, 255, 255, 2, 255, 255, 255, 3, 4, 255, 255],
  [0, 1, 255, 255, 2, 255, 255, 255, 3, 255, 255, 255, 4, 5, 255, 255],
  [0, 1, 2, 255, 3, 255, 255, 255, 4, 255, 255, 255, 5, 6, 255, 255],
  [0, 1, 2, 3, 4, 255, 255, 255, 5, 255, 255, 255, 6, 7, 255, 255],
  [0, 255, 255, 255, 1, 2, 255, 255, 3, 255, 255, 255, 4, 5, 255, 255],
  [0, 1, 255, 255, 2, 3, 255, 255, 4, 255, 255, 255, 5, 6, 255, 255],
  [0, 1, 2, 255, 3, 4, 255, 255, 5, 255, 255, 255, 6, 7, 255, 255],
  [0, 1, 2, 3, 4, 5, 255, 255, 6, 255, 255, 255, 7, 8, 255, 255],
  [0, 255, 255, 255, 1, 2, 3, 255, 4, 255, 255, 255, 5, 6, 255, 255],
  [0, 1, 255, 255, 2, 3, 4, 255, 5, 255, 255, 255, 6, 7, 255, 255],
  [0, 1, 2, 255, 3, 4, 5, 255, 6, 255, 255, 255, 7, 8, 255, 255],
  [0, 1, 2, 3, 4, 5, 6, 255, 7, 255, 255, 255, 8, 9, 255, 255],
  [0, 255, 255, 255, 1, 2, 3, 4, 5, 255, 255, 255, 6, 7, 255, 255],
  [0, 1, 255, 255, 2, 3, 4, 5, 6, 255, 255, 255, 7, 8, 255, 255],
  [0, 1, 2, 255, 3, 4, 5, 6, 7, 255, 255, 255, 8, 9, 255, 255],
  [0, 1, 2, 3, 4, 5, 6, 7, 8, 255, 255, 255, 9, 10, 255, 255],
  [0, 255, 255, 255, 1, 255, 255, 255, 2, 3, 255, 255, 4, 5, 255, 255],
  [0, 1, 255, 255, 2, 255, 255, 255, 3, 4, 255, 255, 5, 6, 255, 255],
  [0, 1, 2, 255, 3, 255, 255, 255, 4, 5, 255, 255, 6, 7, 255, 255],
  [0, 1, 2, 3, 4, 255, 255, 255, 5, 6, 255, 255, 7, 8, 255, 255],
  [0, 255, 255, 255, 1, 2, 255, 255, 3, 4, 255, 255, 5, 6, 255, 255],
  [0, 1, 255, 255, 2, 3, 255, 255, 4, 5, 255, 255, 6, 7, 255, 255],
  [0, 1, 2, 255, 3, 4, 255, 255, 5, 6, 255, 255, 7, 8, 255, 255],
  [0, 1, 2, 3, 4, 5, 255, 255, 6, 7, 255, 255, 8, 9, 255, 255],
  [0, 255, 255, 255, 1, 2, 3, 255, 4, 5, 255, 255, 6, 7, 255, 255],
  [0, 1, 255, 255, 2, 3, 4, 255, 5, 6, 255, 255, 7, 8, 255, 255],
  [0, 1, 2, 255, 3, 4, 5, 255, 6, 7, 255, 255, 8, 9, 255, 255],
  [0, 1, 2, 3, 4, 5, 6, 255, 7, 8, 255, 255, 9, 10, 255, 255],
  [0, 255, 255, 255, 1, 2, 3, 4, 5, 6, 255, 255, 7, 8, 255, 255],
  [0, 1, 255, 255, 2, 3, 4, 5, 6, 7, 255, 255, 8, 9, 255, 255],
  [0, 1, 2, 255, 3, 4, 5, 6, 7, 8, 255, 255, 9, 10, 255, 255],
  [0, 1, 2, 3, 4, 5, 6, 7, 8, 9, 255, 255, 10, 11, 255, 255],
  [0, 255, 255, 255, 1, 255, 255, 255, 2, 3, 4, 255, 5, 6, 255, 255],
  [0, 1, 255, 255, 2, 255, 255, 255, 3, 4, 5, 255, 6, 7, 255, 255],
  [0, 1, 2, 255, 3, 255, 255, 255, 4, 5, 6, 255, 7, 8, 255, 255],
  [0, 1, 2, 3, 4, 255, 255, 255, 5, 6, 7, 255, 8, 9, 255, 255],
  [0, 255, 255, 255, 1, 2, 255, 255, 3, 4, 5, 255, 6, 7, 255, 255],
  [0, 1, 255, 255, 2, 3, 255, 255, 4, 5, 6, 255, 7, 8, 255, 255],
  [0, 1, 2, 255, 3, 4, 255, 255, 5, 6, 7, 255, 8, 9, 255, 255],
  [0, 1, 2, 3, 4, 5, 255, 255, 6, 7, 8, 255, 9, 10, 255, 255],
  [0, 255, 255, 255, 1, 2, 3, 255, 4, 5, 6, 255, 7, 8, 255, 255],
  [0, 1, 255, 255, 2, 3, 4, 255, 5, 6, 7, 255, 8, 9, 255, 255],
  [0, 1, 2, 255, 3, 4, 5, 255, 6, 7, 8, 255, 9, 10, 255, 255],
  [0, 1, 2, 3, 4, 5, 6, 255, 7, 8, 9, 255, 10, 11, 255, 255],
  [0, 255, 255, 255, 1, 2, 3, 4, 5, 6, 7, 255, 8, 9, 255, 255],
  [0, 1, 255, 255, 2, 3, 4, 5, 6, 7, 8, 255, 9, 10, 255, 255],
  [0, 1, 2, 255, 3, 4, 5, 6, 7, 8, 9, 255, 10, 11, 255, 255],
  [0, 1, 2, 3, 4, 5, 6, 7, 8, 9, 10, 255, 11, 12, 255, 255],
  [0, 255, 255, 255, 1, 255, 255, 255, 2, 3, 4, 5, 6, 7, 255, 255],
  [0, 1, 255, 255, 2, 255, 255, 255, 3, 4, 5, 6, 7, 8, 255, 255],
  [0, 1, 2, 255, 3, 255, 255, 255, 4, 5, 6, 7, 8, 9, 255, 255],
  [0, 1, 2, 3, 4, 255, 255, 255, 5, 6, 7, 8, 9, 10, 255, 255],
  [0, 255, 255, 255, 1, 2, 255, 255, 3, 4, 5, 6, 7, 8, 255, 255],
  [0, 1, 255, 255, 2, 3, 255, 255, 4, 5, 6, 7, 8, 9, 255, 255],
  [0, 1, 2, 255, 3, 4, 255, 255, 5, 6, 7, 8, 9, 10, 255, 255],
  [0, 1, 2, 3, 4, 5, 255, 255, 6, 7, 8, 9, 10, 11, 255, 255],
  [0, 255, 255, 255, 1, 2, 3, 255, 4, 5, 6, 7, 8, 9, 255, 255],
  [0, 1, 255, 255, 2, 3, 4, 255, 5, 6, 7, 8, 9, 10, 255, 255],
  [0, 1, 2, 255, 3, 4, 5, 255, 6, 7, 8, 9, 10, 11, 255, 255],
  [0, 1, 2, 3, 4, 5, 6, 255, 7, 8, 9, 10, 11, 12, 255, 255],
  [0, 255, 255, 255, 1, 2, 3, 4, 5, 6, 7, 8, 9, 10, 255, 255],
  [0, 1, 255, 255, 2, 3, 4, 5, 6, 7, 8, 9, 10, 11, 255, 255],
  [0, 1, 2, 255, 3, 4, 5, 6, 7, 8, 9, 10, 11, 12, 255, 255],
  [0, 1, 2, 3, 4, 5, 6, 7, 8, 9, 10, 11, 12, 13, 255, 255],
  [0, 255, 255, 255, 1, 255, 255, 255, 2, 255, 255, 255, 3, 4, 5, 255],
  [0, 1, 255, 255, 2, 255, 255, 255, 3, 255, 255, 255, 4, 5, 6, 255],
  [0, 1, 2, 255, 3, 255, 255, 255, 4, 255, 255, 255, 5, 6, 7, 255],
  [0, 1, 2, 3, 4, 255, 255, 255, 5, 255, 255, 255, 6, 7, 8, 255],
  [0, 255, 255, 255, 1, 2, 255, 255, 3, 255, 255, 255, 4, 5, 6, 255],
  [0, 1, 255, 255, 2, 3, 255, 255, 4, 255, 255, 255, 5, 6, 7, 255],
  [0, 1, 2, 255, 3, 4, 255, 255, 5, 255, 255, 255, 6, 7, 8, 255],
  [0, 1, 2, 3, 4, 5, 255, 255, 6, 255, 255, 255, 7, 8, 9, 255],
  [0, 255, 255, 255, 1, 2, 3, 255, 4, 255, 255, 255, 5, 6, 7, 255],
  [0, 1, 255, 255, 2, 3, 4, 255, 5, 255, 255, 255, 6, 7, 8, 255],
  [0, 1, 2, 255, 3, 4, 5, 255, 6, 255, 255, 255, 7, 8, 9, 255],
  [0, 1, 2, 3, 4, 5, 6, 255, 7, 255, 255, 255, 8, 9, 10, 255],
  [0, 255, 255, 255, 1, 2, 3, 4, 5, 255, 255, 255, 6, 7, 8, 255],
  [0, 1, 255, 255, 2, 3, 4, 5, 6, 255, 255, 255, 7, 8, 9, 255],
  [0, 1, 2, 255, 3, 4, 5, 6, 7, 255, 255, 255, 8, 9, 10, 255],
  [0, 1, 2, 3, 4, 5, 6, 7, 8, 255, 255, 255, 9, 10, 11, 255],
  [0, 255, 255, 255, 1, 255, 255, 255, 2, 3, 255, 255, 4, 5, 6, 255],
  [0, 1, 255, 255, 2, 255, 255, 255, 3, 4, 255, 255, 5, 6, 7, 255],
  [0, 1, 2, 255, 3, 255, 255, 255, 4, 5, 255, 255, 6, 7, 8, 255],
  [0, 1, 2, 3, 4, 255, 255, 255, 5, 6, 255, 255, 7, 8, 9, 255],
  [0, 255, 255, 255, 1, 2, 255, 255, 3, 4, 255, 255, 5, 6, 7, 255],
  [0, 1, 255, 255, 2, 3, 255, 255, 4, 5, 255, 255, 6, 7, 8, 255],
  [0, 1, 2, 255, 3, 4, 255, 255, 5, 6, 255, 255, 7, 8, 9, 255],
  [0, 1, 2, 3, 4, 5, 255, 255, 6, 7, 255, 255, 8, 9, 10, 255],
  [0, 255, 255, 255, 1, 2, 3, 255, 4, 5, 255, 255, 6, 7, 8, 255],
  [0, 1, 255, 255, 2, 3, 4, 255, 5, 6, 255, 255, 7, 8, 9, 255],
  [0, 1, 2, 255, 3, 4, 5, 255, 6, 7, 255, 255, 8, 9, 10, 255],
  [0, 1, 2, 3, 4, 5, 6, 255, 7, 8, 255, 255, 9, 10, 11, 255],
  [0, 255, 255, 255, 1, 2, 3, 4, 5, 6, 255, 255, 7, 8, 9, 255],
  [0, 1, 255, 255, 2, 3, 4, 5, 6, 7, 255, 255, 8, 9, 10, 255],
  [0, 1, 2, 255, 3, 4, 5, 6, 7, 8, 255, 255, 9, 10, 11, 255],
  [0, 1, 2, 3, 4, 5, 6, 7, 8, 9, 255, 255, 10, 11, 12, 255],
  [0, 255, 255, 255, 1, 255, 255, 255, 2, 3, 4, 255, 5, 6, 7, 255],
  [0, 1, 255, 255, 2, 255, 255, 255, 3, 4, 5, 255, 6, 7, 8, 255],
  [0, 1, 2, 255, 3, 255, 255, 255, 4, 5, 6, 255, 7, 8, 9, 255],
  [0, 1, 2, 3, 4, 255, 255, 255, 5, 6, 7, 255, 8, 9, 10, 255],
  [0, 255, 255, 255, 1, 2, 255, 255, 3, 4, 5, 255, 6, 7, 8, 255],
  [0, 1, 255, 255, 2, 3, 255, 255, 4, 5, 6, 255, 7, 8, 9, 255],
  [0, 1, 2, 255, 3, 4, 255, 255, 5, 6, 7, 255, 8, 9, 10, 255],
  [0, 1, 2, 3, 4, 5, 255, 255, 6, 7, 8, 255, 9, 10, 11, 255],
  [0, 255, 255, 255, 1, 2, 3, 255, 4, 5, 6, 255, 7, 8, 9, 255],
  [0, 1, 255, 255, 2, 3, 4, 255, 5, 6, 7, 255, 8, 9, 10, 255],
  [0, 1, 2, 255, 3, 4, 5, 255, 6, 7, 8, 255, 9, 10, 11, 255],
  [0, 1, 2, 3, 4, 5, 6, 255, 7, 8, 9, 255, 10, 11, 12, 255],
  [0, 255, 255, 255, 1, 2, 3, 4, 5, 6, 7, 255, 8, 9, 10, 255],
  [0, 1, 255, 255, 2, 3, 4, 5, 6, 7, 8, 255, 9, 10, 11, 255],
  [0, 1, 2, 255, 3, 4, 5, 6, 7, 8, 9, 255, 10, 11, 12, 255],
  [0, 1, 2, 3, 4, 5, 6, 7, 8, 9, 10, 255, 11, 12, 13, 255],
  [0, 255, 255, 255, 1, 255, 255, 255, 2, 3, 4, 5, 6, 7, 8, 255],
  [0, 1, 255, 255, 2, 255, 255, 255, 3, 4, 5, 6, 7, 8, 9, 255],
  [0, 1, 2, 255, 3, 255, 255, 255, 4, 5, 6, 7, 8, 9, 10, 255],
  [0, 1, 2, 3, 4, 255, 255, 255, 5, 6, 7, 8, 9, 10, 11, 255],
  [0, 255, 255, 255, 1, 2, 255, 255, 3, 4, 5, 6, 7, 8, 9, 255],
  [0, 1, 255, 255, 2, 3, 255, 255, 4, 5, 6, 7, 8, 9, 10, 255],
  [0, 1, 2, 255, 3, 4, 255, 255, 5, 6, 7, 8, 9, 10, 11, 255],
  [0, 1, 2, 3, 4, 5, 255, 255, 6, 7, 8, 9, 10, 11, 12, 255],
  [0, 255, 255, 255, 1, 2, 3, 255, 4, 5, 6, 7, 8, 9, 10, 255],
  [0, 1, 255, 255, 2, 3, 4, 255, 5, 6, 7, 8, 9, 10, 11, 255],
  [0, 1, 2, 255, 3, 4, 5, 255, 6, 7, 8, 9, 10, 11, 12, 255],
  [0, 1, 2, 3, 4, 5, 6, 255, 7, 8, 9, 10, 11, 12, 13, 255],
  [0, 255, 255, 255, 1, 2, 3, 4, 5, 6, 7, 8, 9, 10, 11, 255],
  [0, 1, 255, 255, 2, 3, 4, 5, 6, 7, 8, 9, 10, 11, 12, 255],
  [0, 1, 2, 255, 3, 4, 5, 6, 7, 8, 9, 10, 11, 12, 13, 255],
  [0, 1, 2, 3, 4, 5, 6, 7, 8, 9, 10, 11, 12, 13, 14, 255],
  [0, 255, 255, 255, 1, 255, 255, 255, 2, 255, 255, 255, 3, 4, 5, 6],
  [0, 1, 255, 255, 2, 255, 255, 255, 3, 255, 255, 255, 4, 5, 6, 7],
  [0, 1, 2, 255, 3, 255, 255, 255, 4, 255, 255, 255, 5, 6, 7, 8],
  [0, 1, 2, 3, 4, 255, 255, 255, 5, 255, 255, 255, 6, 7, 8, 9],
  [0, 255, 255, 255, 1, 2, 255, 255, 3, 255, 255, 255, 4, 5, 6, 7],
  [0, 1, 255, 255, 2, 3, 255, 255, 4, 255, 255, 255, 5, 6, 7, 8],
  [0, 1, 2, 255, 3, 4, 255, 255, 5, 255, 255, 255, 6, 7, 8, 9],
  [0, 1, 2, 3, 4, 5, 255, 255, 6, 255, 255, 255, 7, 8, 9, 10],
  [0, 255, 255, 255, 1, 2, 3, 255, 4, 255, 255, 255, 5, 6, 7, 8],
  [0, 1, 255, 255, 2, 3, 4, 255, 5, 255, 255, 255, 6, 7, 8, 9],
  [0, 1, 2, 255, 3, 4, 5, 255, 6, 255, 255, 255, 7, 8, 9, 10],
  [0, 1, 2, 3, 4, 5, 6, 255, 7, 255, 255, 255, 8, 9, 10, 11],
  [0, 255, 255, 255, 1, 2, 3, 4, 5, 255, 255, 255, 6, 7, 8, 9],
  [0, 1, 255, 255, 2, 3, 4, 5, 6, 255, 255, 255, 7, 8, 9, 10],
  [0, 1, 2, 255, 3, 4, 5, 6, 7, 255, 255, 255, 8, 9, 10, 11],
  [0, 1, 2, 3, 4, 5, 6, 7, 8, 255, 255, 255, 9, 10, 11, 12],
  [0, 255, 255, 255, 1, 255, 255, 255, 2, 3, 255, 255, 4, 5, 6, 7],
  [0, 1, 255, 255, 2, 255, 255, 255, 3, 4, 255, 255, 5, 6, 7, 8],
  [0, 1, 2, 255, 3, 255, 255, 255, 4, 5, 255, 255, 6, 7, 8, 9],
  [0, 1, 2, 3, 4, 255, 255, 255, 5, 6, 255, 255, 7, 8, 9, 10],
  [0, 255, 255, 255, 1, 2, 255, 255, 3, 4, 255, 255, 5, 6, 7, 8],
  [0, 1, 255, 255, 2, 3, 255, 255, 4, 5, 255, 255, 6, 7, 8, 9],
  [0, 1, 2, 255, 3, 4, 255, 255, 5, 6, 255, 255, 7, 8, 9, 10],
  [0, 1, 2, 3, 4, 5, 255, 255, 6, 7, 255, 255, 8, 9, 10, 11],
  [0, 255, 255, 255, 1, 2, 3, 255, 4, 5, 255, 255, 6, 7, 8, 9],
  [0, 1, 255, 255, 2, 3, 4, 255, 5, 6, 255, 255, 7, 8, 9, 10],
  [0, 1, 2, 255, 3, 4, 5, 255, 6, 7, 255, 255, 8, 9, 10, 11],
  [0, 1, 2, 3, 4, 5, 6, 255, 7, 8, 255, 255, 9, 10, 11, 12],
  [0, 255, 255, 255, 1, 2, 3, 4, 5, 6, 255, 255, 7, 8, 9, 10],
  [0, 1, 255, 255, 2, 3, 4, 5, 6, 7, 255, 255, 8, 9, 10, 11],
  [0, 1, 2, 255, 3, 4, 5, 6, 7, 8, 255, 255, 9, 10, 11, 12],
  [0, 1, 2, 3, 4, 5, 6, 7, 8, 9, 255, 255, 10, 11, 12, 13],
  [0, 255, 255, 255, 1, 255, 255, 255, 2, 3, 4, 255, 5, 6, 7, 8],
  [0, 1, 255, 255, 2, 255, 255, 255, 3, 4, 5, 255, 6, 7, 8, 9],
  [0, 1, 2, 255, 3, 255, 255, 255, 4, 5, 6, 255, 7, 8, 9, 10],
  [0, 1, 2, 3, 4, 255, 255, 255, 5, 6, 7, 255, 8, 9, 10, 11],
  [0, 255, 255, 255, 1, 2, 255, 255, 3, 4, 5, 255, 6, 7, 8, 9],
  [0, 1, 255, 255, 2, 3, 255, 255, 4, 5, 6, 255, 7, 8, 9, 10],
  [0, 1, 2, 255, 3, 4, 255, 255, 5, 6, 7, 255, 8, 9, 10, 11],
  [0, 1, 2, 3, 4, 5, 255, 255, 6, 7, 8, 255, 9, 10, 11, 12],
  [0, 255, 255, 255, 1, 2, 3, 255, 4, 5, 6, 255, 7, 8, 9, 10],
  [0, 1, 255, 255, 2, 3, 4, 255, 5, 6, 7, 255, 8, 9, 10, 11],
  [0, 1, 2, 255, 3, 4, 5, 255, 6, 7, 8, 255, 9, 10, 11, 12],
  [0, 1, 2, 3, 4, 5, 6, 255, 7, 8, 9, 255, 10, 11, 12, 13],
  [0, 255, 255, 255, 1, 2, 3, 4, 5, 6, 7, 255, 8, 9, 10, 11],
  [0, 1, 255, 255, 2, 3, 4, 5, 6, 7, 8, 255, 9, 10, 11, 12],
  [0, 1, 2, 255, 3, 4, 5, 6, 7, 8, 9, 255, 10, 11, 12, 13],
  [0, 1, 2, 3, 4, 5, 6, 7, 8, 9, 10, 255, 11, 12, 13, 14],
  [0, 255, 255, 255, 1, 255, 255, 255, 2, 3, 4, 5, 6, 7, 8, 9],
  [0, 1, 255, 255, 2, 255, 255, 255, 3, 4, 5, 6, 7, 8, 9, 10],
  [0, 1, 2, 255, 3, 255, 255, 255, 4, 5, 6, 7, 8, 9, 10, 11],
  [0, 1, 2, 3, 4, 255, 255, 255, 5, 6, 7, 8, 9, 10, 11, 12],
  [0, 255, 255, 255, 1, 2, 255, 255, 3, 4, 5, 6, 7, 8, 9, 10],
  [0, 1, 255, 255, 2, 3, 255, 255, 4, 5, 6, 7, 8, 9, 10, 11],
  [0, 1, 2, 255, 3, 4, 255, 255, 5, 6, 7, 8, 9, 10, 11, 12],
  [0, 1, 2, 3, 4, 5, 255, 255, 6, 7, 8, 9, 10, 11, 12, 13],
  [0, 255, 255, 255, 1, 2, 3, 255, 4, 5, 6, 7, 8, 9, 10, 11],
  [0, 1, 255, 255, 2, 3, 4, 255, 5, 6, 7, 8, 9, 10, 11, 12],
  [0, 1, 2, 255, 3, 4, 5, 255, 6, 7, 8, 9, 10, 11, 12, 13],
  [0, 1, 2, 3, 4, 5, 6, 255, 7, 8, 9, 10, 11, 12, 13, 14],
  [0, 255, 255, 255, 1, 2, 3, 4, 5, 6, 7, 8, 9, 10, 11, 12],
  [0, 1, 255, 255, 2, 3, 4, 5, 6, 7, 8, 9, 10, 11, 12, 13],
  [0, 1, 2, 255, 3, 4, 5, 6, 7, 8, 9, 10, 11, 12, 13, 14],
  [0, 1, 2, 3, 4, 5, 6, 7, 8, 9, 10, 11, 12, 13, 14, 15]]

/-- The two bits of the key byte `key` that belong to the value in lane `t`. -/
def laneCode (key t : Nat) : Nat := key / 4 ^ t % 4

/-- The number of data bytes in front of lane `t`. -/
def laneStart (key : Nat) : Nat → Nat
  | 0 => 0
  | t + 1 => laneStart key t + laneCode key t + 1

/-- The control byte for byte `b` of the result: byte `b % 4` of lane `b / 4`. -/
def shuffleEntry (key b : Nat) : Nat :=
  if b % 4 ≤ laneCode key (b / 4) then laneStart key (b / 4) + b % 4 else 255

/-- The length table holds the number of data bytes of the four lanes. -/
theorem lengthTable_eq : lengthTable = (List.range 256).map (fun key => laneStart key 4) := by
  decide +kernel

/-- The shuffle table sends every data byte to its place and fills up with zeros. -/
theorem shuffleTable_eq :
    shuffleTable = (List.range 256).map (fun key => (List.range 16).map (shuffleEntry key)) := by
  decide +kernel

theorem laneCode_lt (key t : Nat) : laneCode key t < 4 := Nat.mod_lt _ (by omega)

theorem laneStart_le (key t : Nat) : laneStart key t ≤ 4 * t := by
  induction t with
  | zero => simp [laneStart]
  | succ t ih =>
      have := laneCode_lt key t
      rw [laneStart]
      omega

end CSearch.StreamVByte
