/-
**Which stripe a path falls into.**

When locks are shared, a path is assigned to one of them by a hash.  Any hash of paths will do;
nothing but how locks are shared depends on it.

The one that is used when no other is given goes over the names of a path.  It takes in one word
after the other: it is rotated by five bits, combined with the word, and multiplied by a constant,
all on 64 bits.  The words are the number of names, and for each name its bytes, eight to a word as
long as there are eight, then four, two and one, and an end mark.

Main definitions:

* `Striping`, `Striping.index` — how locks are shared, and **the stripe of a path**;
* `Stripe.mix` — taking in one word;
* `Stripe.wordsOfBytes`, `Stripe.wordsOfPath` — the words of a name and of a path;
* `Stripe.hash` — the hash that is used when no other is given.
-/

import TransactionalTree.Path.Basic

set_option relaxedAutoImplicit false
set_option autoImplicit false

namespace TransactionalTree

/-- How locks are shared: so many of them, and a hash by which paths fall to them. -/
structure Striping where
  /-- The number of stripes. -/
  count : Nat
  /-- The hash of a path. -/
  hash : Path → UInt64

namespace Striping

/-- The same with at least one stripe. -/
def atLeastOne (s : Striping) : Striping := { s with count := max 1 s.count }

/-- **The stripe of a path.** -/
def index (s : Striping) (p : Path) : Nat := (s.hash p).toNat % s.count

theorem index_lt {s : Striping} (h : 0 < s.count) (p : Path) : s.index p < s.count :=
  Nat.mod_lt _ h

end Striping

namespace Stripe

/-- Take in one word. -/
def mix (h w : UInt64) : UInt64 :=
  (((h <<< 5) ||| (h >>> 59)) ^^^ w) * 0x517cc1b727220a95

/-- The number that bytes spell, the lowest byte first. -/
def littleEndian (bs : List UInt8) : UInt64 :=
  bs.foldr (fun b n => n * 256 + b.toUInt64) 0

/-- The words of the bytes of a name. -/
def wordsOfBytes : List UInt8 → List UInt64
  | a :: b :: c :: d :: e :: f :: g :: h :: rest =>
      littleEndian [a, b, c, d, e, f, g, h] :: wordsOfBytes rest
  | a :: b :: c :: d :: rest => littleEndian [a, b, c, d] :: wordsOfBytes rest
  | a :: b :: rest => littleEndian [a, b] :: wordsOfBytes rest
  | [a] => [a.toUInt64]
  | [] => []

/-- The words of a path. -/
def wordsOfPath (p : Path) : List UInt64 :=
  UInt64.ofNat p.names.length ::
    p.names.flatMap fun name => wordsOfBytes name.toUTF8.data.toList ++ [0xff]

/-- The hash that is used when no other is given. -/
def hash (p : Path) : UInt64 := (wordsOfPath p).foldl mix 0

end Stripe

end TransactionalTree
