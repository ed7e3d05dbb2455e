/-
**Equality of values.**

Two doubles are equal if neither is a NaN and both stand for the same number; in particular the two
zeros are equal.  Two values are equal if, wherever one looks into them along indices of arrays,
there is nothing in either or the same kind of value with equal content.  So what holds of numbers
holds of values, however deep arrays are nested: equality is symmetric and transitive, and only a
value with a NaN somewhere in it does not equal itself.

Main definitions:

* `Double.scaled` — the number that a pattern stands for, in units of the least positive one;
* `Value.at?` — what is found in a value along indices of arrays;
* `Value.Alike` — two values have the same kind and, outside of arrays, equal content.

Main results:

* `Double.equal_iff` — **equal doubles are the same number**;
* `Value.equal_iff` — equal values are alike wherever one looks into them;
* `Value.equality_laws` — **equality of values is a partial equivalence**.
-/

import Mathlib.Algebra.Group.Nat.Defs
import Mathlib.Data.List.Forall2
import Mathlib.Order.Monotone.Basic
import TransactionalTree.Value

set_option relaxedAutoImplicit false
set_option autoImplicit false

namespace TransactionalTree

namespace Double

variable {x y z : Double}

/-! ### The number of a pattern -/

/-- Whether the sign bit is set. -/
def isNegative (x : Double) : Bool := 0x8000000000000000 ≤ x.bits

/-- The number of a pattern without sign, in units of `2 ^ -1074`: the lowest 52 bits are the
fraction and those above the exponent, by which the fraction and the bit in front of it are shifted;
with the exponent zero there is no such bit.  Infinity comes out greater than all other numbers. -/
def scaledMagnitude (m : Nat) : Nat :=
  if m < 2 ^ 52 then m else (2 ^ 52 + m % 2 ^ 52) * 2 ^ (m / 2 ^ 52 - 1)

/-- **The number of a pattern** that is not that of a NaN, in units of `2 ^ -1074`. -/
def scaled (x : Double) : Int :=
  if x.isNegative then -(scaledMagnitude x.magnitude.toNat : Int)
  else scaledMagnitude x.magnitude.toNat

theorem scaledMagnitude_strictMono : StrictMono scaledMagnitude := by
  intro m n hmn
  have hm := Nat.div_add_mod m (2 ^ 52)
  have hn := Nat.div_add_mod n (2 ^ 52)
  have hfm := Nat.mod_lt m (Nat.two_pow_pos 52)
  simp only [scaledMagnitude]
  by_cases hnsmall : n < 2 ^ 52
  · rw [if_pos (hmn.trans hnsmall), if_pos hnsmall]
    exact hmn
  · have hen : 1 ≤ n / 2 ^ 52 := (Nat.one_le_div_iff (Nat.two_pow_pos 52)).2 (Nat.not_lt.1 hnsmall)
    rw [if_neg hnsmall]
    by_cases hmsmall : m < 2 ^ 52
    · rw [if_pos hmsmall]
      calc m < (2 ^ 52 + n % 2 ^ 52) * 1 := by omega
        _ ≤ (2 ^ 52 + n % 2 ^ 52) * 2 ^ (n / 2 ^ 52 - 1) :=
          Nat.mul_le_mul_left _ Nat.one_le_two_pow
    · have hem : 1 ≤ m / 2 ^ 52 :=
        (Nat.one_le_div_iff (Nat.two_pow_pos 52)).2 (Nat.not_lt.1 hmsmall)
      rw [if_neg hmsmall]
      rcases Nat.lt_or_eq_of_le (Nat.div_le_div_right (c := 2 ^ 52) hmn.le) with hlt | heq
      -- a greater exponent is worth more than any fraction
      · calc (2 ^ 52 + m % 2 ^ 52) * 2 ^ (m / 2 ^ 52 - 1)
            < (2 ^ 52 * 2) * 2 ^ (m / 2 ^ 52 - 1) :=
              Nat.mul_lt_mul_of_pos_right (by omega) (Nat.two_pow_pos _)
          _ = 2 ^ 52 * 2 ^ (m / 2 ^ 52) := by
              rw [Nat.mul_assoc, ← Nat.pow_succ', Nat.succ_eq_add_one, Nat.sub_add_cancel hem]
          _ ≤ 2 ^ 52 * 2 ^ (n / 2 ^ 52 - 1) :=
              Nat.mul_le_mul_left _ (Nat.pow_le_pow_right (by decide) (by omega))
          _ ≤ (2 ^ 52 + n % 2 ^ 52) * 2 ^ (n / 2 ^ 52 - 1) :=
              Nat.mul_le_mul_right _ (Nat.le_add_right _ _)
      · rw [heq]
        exact Nat.mul_lt_mul_of_pos_right (by omega) (Nat.two_pow_pos _)

/-- The sign bit and the rest make up the pattern. -/
theorem toNat_bits (x : Double) :
    x.bits.toNat = (if x.isNegative then 2 ^ 63 else 0) + x.magnitude.toNat := by
  have hmagnitude : x.magnitude.toNat = x.bits.toNat % 2 ^ 63 := by
    rw [magnitude, UInt64.toNat_and]
    exact Nat.and_two_pow_sub_one_eq_mod x.bits.toNat 63
  have hnegative : x.isNegative = true ↔ 2 ^ 63 ≤ x.bits.toNat := by
    rw [isNegative, decide_eq_true_iff, UInt64.le_iff_toNat_le]
    rfl
  have hlt := x.bits.toNat_lt
  rw [hmagnitude]
  split
  · rename_i hneg
    have hle := hnegative.1 hneg
    omega
  · rename_i hpos
    have hle := mt hnegative.2 hpos
    omega

/-- Patterns of the same number are the same, but for the two zeros. -/
theorem scaled_eq_iff :
    x.scaled = y.scaled ↔ x.bits = y.bits ∨ x.magnitude = 0 ∧ y.magnitude = 0 := by
  have hinj := scaledMagnitude_strictMono.injective
  have hzero : ∀ {m : Nat}, scaledMagnitude m = 0 → m = 0 := fun h => hinj h
  have hx := toNat_bits x
  have hy := toNat_bits y
  constructor
  · intro h
    simp only [scaled] at h
    by_cases hsign : x.isNegative = y.isNegative
    · left
      have hsame : x.magnitude.toNat = y.magnitude.toNat := by
        refine hinj ?_
        rw [hsign] at h
        split at h <;> omega
      refine UInt64.toNat_inj.1 ?_
      rw [hx, hy, hsign, hsame]
    -- a number and its opposite are only the same if they are zero
    · right
      have hnone : scaledMagnitude x.magnitude.toNat = 0 ∧
          scaledMagnitude y.magnitude.toNat = 0 := by
        have hother : y.isNegative = !x.isNegative := Bool.eq_not_of_ne (Ne.symm hsign)
        cases hxs : x.isNegative with
        | true =>
            rw [hother, hxs, if_pos rfl, if_neg (by decide)] at h
            omega
        | false =>
            rw [hother, hxs, if_neg (by decide), if_pos (by decide)] at h
            omega
      exact ⟨UInt64.toNat_inj.1 (hzero hnone.1), UInt64.toNat_inj.1 (hzero hnone.2)⟩
  · rintro (hbits | ⟨hmx, hmy⟩)
    · obtain ⟨_⟩ := x
      obtain ⟨_⟩ := y
      exact congrArg (fun bits => scaled ⟨bits⟩) hbits
    · have hnone : ∀ {z : Double}, z.magnitude = 0 → z.scaled = 0 := by
        intro z hz
        rw [scaled, hz]
        split <;> rfl
      rw [hnone hmx, hnone hmy]

/-- **Equal doubles are the same number**, and a NaN is none. -/
theorem equal_iff :
    x.equal y = true ↔ x.isNaN = false ∧ y.isNaN = false ∧ x.scaled = y.scaled := by
  rw [scaled_eq_iff, equal, isZero, isZero]
  simp only [Bool.and_eq_true, Bool.or_eq_true, Bool.not_eq_true', decide_eq_true_iff, and_assoc]

theorem equal_symm (h : x.equal y = true) : y.equal x = true := by
  obtain ⟨hx, hy, heq⟩ := equal_iff.1 h
  exact equal_iff.2 ⟨hy, hx, heq.symm⟩

theorem equal_trans (h : x.equal y = true) (h' : y.equal z = true) : x.equal z = true := by
  obtain ⟨hx, -, heq⟩ := equal_iff.1 h
  obtain ⟨-, hz, heq'⟩ := equal_iff.1 h'
  exact equal_iff.2 ⟨hx, hz, heq.trans heq'⟩

theorem equal_self_iff : x.equal x = true ↔ x.isNaN = false := by
  rw [equal_iff]
  exact ⟨fun h => h.1, fun h => ⟨h, h, rfl⟩⟩

end Double

namespace Value

variable {a b c : Value}

/-! ### Looking into a value -/

/-- The values in an array; there are none in other values. -/
def items : Value → List Value
  | array vs => vs
  | _ => []

/-- **What is found in a value** along the indices, one for each array on the way. -/
def at? (v : Value) : List Nat → Option Value
  | [] => some v
  | i :: position => v.items[i]?.bind fun w => w.at? position

/-- Two values have the same kind and, outside of arrays, equal content. -/
inductive Alike : Value → Value → Prop
  | null : Alike null null
  | bool (b : Bool) : Alike (bool b) (bool b)
  | int (i : Int64) : Alike (int i) (int i)
  | float {x y : Double} (h : x.equal y = true) : Alike (float x) (float y)
  | string (s : String) : Alike (string s) (string s)
  | bytes (bs : List UInt8) : Alike (bytes bs) (bytes bs)
  | array (vs ws : List Value) : Alike (array vs) (array ws)

namespace Alike

theorem symm (h : Alike a b) : Alike b a := by
  cases h with
  | float h => exact .float (Double.equal_symm h)
  | _ => constructor

theorem trans (h : Alike a b) (h' : Alike b c) : Alike a c := by
  cases h with
  | float h =>
      cases h' with
      | float h' => exact .float (Double.equal_trans h h')
  | _ => cases h'; constructor

theorem self_iff : Alike a a ↔ ∀ x, a = .float x → x.isNaN = false := by
  constructor
  · rintro h x rfl
    cases h with
    | float h => exact Double.equal_self_iff.1 h
  · intro h
    cases a with
    | float x => exact .float (Double.equal_self_iff.2 (h x rfl))
    | _ => constructor

theorem kind_eq (h : Alike a b) : a.kind = b.kind := by
  cases h <;> rfl

end Alike

/-! ### Equality, place by place -/

theorem equalAll_iff {as bs : List Value} :
    equalAll as bs = true ↔ List.Forall₂ (fun a b => a.equal b = true) as bs := by
  induction as generalizing bs with
  | nil => cases bs <;> simp [equalAll]
  | cons a as ih => cases bs <;> simp [equalAll, ih]

/-- Equality of values is that of the values themselves and of what is in them. -/
theorem equal_iff_items : a.equal b = true ↔
    Alike a b ∧ List.Forall₂ (fun v w => v.equal w = true) a.items b.items := by
  constructor
  · intro h
    cases a <;> cases b <;> simp only [equal, Bool.false_eq_true, decide_eq_true_iff] at h
    case null.null => exact ⟨.null, .nil⟩
    case float.float => exact ⟨.float h, .nil⟩
    case array.array => exact ⟨.array _ _, equalAll_iff.1 h⟩
    all_goals
      subst h
      exact ⟨by constructor, .nil⟩
  · rintro ⟨h, hitems⟩
    cases h with
    | float h => exact h
    | array vs ws => exact equalAll_iff.2 hitems
    | _ => simp [equal]

/-- What is at two places agrees: there is nothing in either, or what there is agrees. -/
theorem rel_iff {R : Value → Value → Prop} {x y : Option Value} : Option.Rel R x y ↔
    x = none ∧ y = none ∨ ∃ v w, x = some v ∧ y = some w ∧ R v w := by
  constructor
  · rintro (@⟨v, w, h⟩ | _)
    · exact .inr ⟨v, w, rfl, rfl, h⟩
    · exact .inl ⟨rfl, rfl⟩
  · rintro (⟨rfl, rfl⟩ | ⟨v, w, rfl, rfl, h⟩)
    · exact .none
    · exact .some h

/-- Lists agree if they agree at every index. -/
theorem forall₂_iff_getElem? {R : Value → Value → Prop} {as bs : List Value} :
    List.Forall₂ R as bs ↔ ∀ i : Nat, Option.Rel R as[i]? bs[i]? := by
  simp only [rel_iff]
  induction as generalizing bs with
  | nil =>
      cases bs with
      | nil => simp
      | cons b bs => exact iff_of_false (by simp) fun h => by simpa using h 0
  | cons a as ih =>
      cases bs with
      | nil => exact iff_of_false (by simp) fun h => by simpa using h 0
      | cons b bs =>
          rw [List.forall₂_cons, ih]
          constructor
          · rintro ⟨hab, h⟩ i
            cases i with
            | zero => exact .inr ⟨a, b, rfl, rfl, hab⟩
            | succ i => exact h i
          · intro h
            exact ⟨by simpa using h 0, fun i => h (i + 1)⟩

theorem sizeOf_lt_of_mem_items (h : b ∈ a.items) : sizeOf b < sizeOf a := by
  cases a with
  | array vs =>
      have hlt := List.sizeOf_lt_of_mem h
      simp only [array.sizeOf_spec, items] at hlt ⊢
      omega
  | _ => simp [items] at h

/-- **Equal values are alike wherever one looks into them.** -/
theorem equal_iff (a b : Value) :
    a.equal b = true ↔ ∀ position, Option.Rel Alike (a.at? position) (b.at? position) := by
  have ih : ∀ v ∈ a.items, ∀ w, v.equal w = true ↔
      ∀ position, Option.Rel Alike (v.at? position) (w.at? position) :=
    fun v hv w => equal_iff v w
  rw [equal_iff_items, forall₂_iff_getElem?]
  constructor
  · rintro ⟨halike, hitems⟩ position
    cases position with
    | nil => exact .some halike
    | cons i position =>
        rw [at?, at?]
        rcases rel_iff.1 (hitems i) with ⟨hv, hw⟩ | ⟨v, w, hv, hw, h⟩
        · rw [hv, hw]
          exact .none
        · rw [hv, hw]
          exact (ih v (List.mem_of_getElem? hv) w).1 h position
  · intro h
    refine ⟨?_, fun i => ?_⟩
    · rcases rel_iff.1 (h []) with ⟨hnone, -⟩ | ⟨v, w, hv, hw, halike⟩
      · simp [at?] at hnone
      · obtain rfl := Option.some.inj hv
        obtain rfl := Option.some.inj hw
        exact halike
    · have hi := fun position => h (i :: position)
      simp only [at?] at hi
      -- there is an item in both or in neither, since the place itself is looked at too
      cases hv : a.items[i]? with
      | none =>
          cases hw : b.items[i]? with
          | none => exact .none
          | some w => simpa [hv, hw, at?, rel_iff] using hi []
      | some v =>
          cases hw : b.items[i]? with
          | none => simpa [hv, hw, at?, rel_iff] using hi []
          | some w =>
              rw [hv, hw] at hi
              exact .some ((ih v (List.mem_of_getElem? hv) w).2 hi)
termination_by a
decreasing_by exact sizeOf_lt_of_mem_items hv

theorem equal_symm (h : a.equal b = true) : b.equal a = true := by
  refine (equal_iff b a).2 fun position => rel_iff.2 ?_
  rcases rel_iff.1 ((equal_iff a b).1 h position) with ⟨hv, hw⟩ | ⟨v, w, hv, hw, halike⟩
  · exact .inl ⟨hw, hv⟩
  · exact .inr ⟨w, v, hw, hv, halike.symm⟩

theorem equal_trans (h : a.equal b = true) (h' : b.equal c = true) : a.equal c = true := by
  refine (equal_iff a c).2 fun position => rel_iff.2 ?_
  have hbc := rel_iff.1 ((equal_iff b c).1 h' position)
  rcases rel_iff.1 ((equal_iff a b).1 h position) with ⟨hv, hw⟩ | ⟨v, w, hv, hw, halike⟩
  · simp only [hw, reduceCtorEq, false_and, exists_false, or_false, true_and] at hbc
    exact .inl ⟨hv, hbc⟩
  · simp only [hw, reduceCtorEq, false_and, false_or, Option.some.injEq] at hbc
    obtain ⟨_, u, rfl, hu, halike'⟩ := hbc
    exact .inr ⟨v, u, hv, hu, halike.trans halike'⟩

/-- **A value equals itself** exactly if no number in it is a NaN. -/
theorem equal_self_iff : a.equal a = true ↔
    ∀ position x, a.at? position = some (.float x) → x.isNaN = false := by
  rw [equal_iff]
  constructor
  · intro h position x hx
    rcases rel_iff.1 (h position) with ⟨hnone, -⟩ | ⟨v, w, hv, hw, halike⟩
    · simp [hx] at hnone
    · obtain rfl := Option.some.inj (hx.symm.trans hv)
      obtain rfl := Option.some.inj (hx.symm.trans hw)
      exact Alike.self_iff.1 halike x rfl
  · intro h position
    cases hv : a.at? position with
    | none => exact .none
    | some v =>
        refine .some (Alike.self_iff.2 ?_)
        rintro x rfl
        exact h position x hv

/-- Equal values have values of the same kind in every place. -/
theorem kind_at?_of_equal (h : a.equal b = true) (position : List Nat) :
    (a.at? position).map kind = (b.at? position).map kind := by
  rcases rel_iff.1 ((equal_iff a b).1 h position) with ⟨hv, hw⟩ | ⟨v, w, hv, hw, halike⟩
  · rw [hv, hw]
  · rw [hv, hw]
    exact congrArg some halike.kind_eq

/-- **Equality of values is a partial equivalence.**  It is symmetric and transitive.  A value
equals itself exactly if no number in it, however deep, is a NaN.  Equal values have values of the
same kind in every place, and numbers are equal if neither is a NaN and both are the same number. -/
theorem equality_laws :
    (∀ a b : Value, a.equal b = true → b.equal a = true) ∧
    (∀ a b c : Value, a.equal b = true → b.equal c = true → a.equal c = true) ∧
    (∀ a : Value, a.equal a = true ↔
      ∀ position x, a.at? position = some (.float x) → x.isNaN = false) ∧
    (∀ a b : Value, a.equal b = true →
      ∀ position, (a.at? position).map kind = (b.at? position).map kind) ∧
    ∀ x y : Double, (float x).equal (float y) = true ↔
      x.isNaN = false ∧ y.isNaN = false ∧ x.scaled = y.scaled :=
  ⟨fun _ _ => equal_symm, fun _ _ _ => equal_trans, fun _ => equal_self_iff,
    fun _ _ => kind_at?_of_equal, fun _ _ => Double.equal_iff⟩

/-- The two zeros are equal, however deep they stand. -/
example : (array [.null, .array [.float ⟨0⟩]]).equal
    (array [.null, .array [.float ⟨0x8000000000000000⟩]]) = true := by decide

end Value

end TransactionalTree
