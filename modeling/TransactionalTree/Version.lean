/-
**Version stamps.**

Every committed node carries a stamp.  Stamps have 64 bits, and the one that follows the last is
zero again; below the last one they only ever advance.

Main definitions:

* `Version` — a stamp;
* `Version.next` — the stamp that follows, and `Version.last`, which is followed by zero;
* `Version.newerThan` — strictly newer;
* `Version.toText`, `Version.toRecord` — how a stamp is written.

Main results:

* `Version.lt_next` — **a stamp before the last one is followed by a newer one**.
-/

set_option relaxedAutoImplicit false
set_option autoImplicit false

namespace TransactionalTree

/-- A stamp; the stamp of a node that was never written is zero. -/
abbrev Version := UInt64

namespace Version

/-- The stamp of a node that was never written. -/
def initial : Version := 0

/-- The last stamp. -/
def last : Version := 18446744073709551615

/-- The next stamp; the last one is followed by zero. -/
def next (v : Version) : Version := v + 1

/-- Whether `v` is strictly newer than `w`. -/
def newerThan (v w : Version) : Bool := w < v

/-- The stamp as text. -/
def toText (v : Version) : String := s!"v{v}"

/-- A stamp that may be missing, as a record. -/
def optionToRecord : Option Version → String
  | none => "None"
  | some v => s!"Some(DataVersion({v}))"

/-! ### The order of the stamps -/

/-- The newer of two stamps is the least one that is as new as both. -/
instance : Std.LawfulOrderSup Version where
  max_le_iff a b c := by
    show (if a ≤ b then b else a) ≤ c ↔ a ≤ c ∧ b ≤ c
    split
    · rename_i hab
      exact ⟨fun h => ⟨UInt64.le_trans hab h, h⟩, And.right⟩
    · rename_i hab
      have hba : b ≤ a := (UInt64.le_total a b).resolve_left hab
      exact ⟨fun h => ⟨h, UInt64.le_trans hba h⟩, And.left⟩

/-- Taking note of a stamp once more changes nothing. -/
theorem max_max (v w : Version) : max (max v w) w = max v w :=
  (Std.Associative.assoc v w w).trans (congrArg (max v) Std.max_self)

/-- A stamp before the last one is followed by its successor. -/
theorem toNat_next {v : Version} (h : v ≠ last) : v.next.toNat = v.toNat + 1 := by
  have hsmall : v.toNat ≠ UInt64.size - 1 := fun heq => h (UInt64.toNat_inj.1 heq)
  have hbound := v.toNat_lt_size
  rw [next, UInt64.toNat_add]
  refine Nat.mod_eq_of_lt ?_
  show v.toNat + 1 < UInt64.size
  omega

/-- **A stamp before the last one is followed by a newer one.** -/
theorem lt_next {v : Version} (h : v ≠ last) : v < v.next := by
  rw [UInt64.lt_iff_toNat_lt, toNat_next h]
  exact Nat.lt_succ_self _

/-- The last one is followed by zero. -/
example : last.next = initial := rfl

end Version

end TransactionalTree
