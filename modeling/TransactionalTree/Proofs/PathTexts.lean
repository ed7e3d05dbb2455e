/-
**Paths and their texts.**

A name is good if it is not empty and does not contain the separator.  Every way to make a path out
of texts, and every way to make a path out of paths, keeps to good names, and a path with good names
is what its text reads as.  Strict reading refuses a text exactly if two separators are adjacent in
it, with one exception: the text `//`, in which one is dropped as the leading and the other as the
trailing separator.  It names the least byte at which a separator follows a separator, also when
characters before it take several bytes.

Main definitions:

* `Path.DoubledAt` — the bytes at `i - 1` and `i` are separators;
* `Path.firstDoubled` — the least such byte, found in the characters;
* `Path.Built` — the paths that can be made.

Main results:

* `Path.readPieces_pieces` — reading the pieces of a text fails at the first doubled separator;
* `Path.firstDoubled_spec` — the byte at which it fails is the least of its kind;
* `Path.parse_eq` — **what strict reading gives**, in one equation;
* `Path.parse_eq_error` — **when strict reading fails**, and at which byte;
* `Path.parse_toText` — **a path with good names is read back from its text**;
* `Path.Built.wellFormed` — every path that can be made has good names;
* `Path.text_form` — strict and lenient reading, the constructors and their laws.
-/

import Mathlib.Data.List.Basic
import TransactionalTree.Path.Text
import TransactionalTree.Proofs.Paths

set_option relaxedAutoImplicit false
set_option autoImplicit false

namespace TransactionalTree

namespace Path

variable {p q : Path} {s name : String} {cs ds : List Char} {c : Char}

/-! ### Bytes -/

/-- The bytes of the characters. -/
def bytes (cs : List Char) : List UInt8 := cs.flatMap String.utf8EncodeChar

theorem bytes_toList (s : String) : s.toUTF8.data.toList = bytes s.toList := by
  conv => lhs; rw [← String.ofList_toList (s := s)]
  rw [String.toUTF8_eq_toByteArray, String.toByteArray_ofList]
  exact List.toList_data_toByteArray

/-- A byte of a character is the character, or none that stands for a character by itself. -/
theorem toNat_of_mem_utf8EncodeChar {b : UInt8} (h : b ∈ String.utf8EncodeChar c) :
    b.toNat = c.toNat ∨ 128 ≤ b.toNat := by
  simp only [String.utf8EncodeChar] at h
  split at h
  · rename_i hsmall
    obtain rfl := List.mem_singleton.1 h
    refine .inl ?_
    rw [UInt8.toNat_ofNat']
    exact Nat.mod_eq_of_lt (by omega)
  · refine .inr ?_
    split at h
    · simp only [List.mem_cons, List.not_mem_nil, or_false] at h
      rcases h with rfl | rfl <;> rw [UInt8.toNat_ofNat'] <;> omega
    · split at h
      · simp only [List.mem_cons, List.not_mem_nil, or_false] at h
        rcases h with rfl | rfl | rfl <;> rw [UInt8.toNat_ofNat'] <;> omega
      · simp only [List.mem_cons, List.not_mem_nil, or_false] at h
        rcases h with rfl | rfl | rfl | rfl <;> rw [UInt8.toNat_ofNat'] <;> omega

theorem utf8EncodeChar_separator : String.utf8EncodeChar separator = [0x2f] := by
  decide

/-- Only the separator has the byte of the separator. -/
theorem notMem_utf8EncodeChar (h : c ≠ separator) : (0x2f : UInt8) ∉ String.utf8EncodeChar c := by
  intro hmem
  rcases toNat_of_mem_utf8EncodeChar hmem with heq | hlarge
  · exact h (Char.toNat_inj.1 heq.symm)
  · exact absurd hlarge (by decide)

/-! ### The first doubled separator -/

/-- The separator stands at byte `i` of the text and at the byte before. -/
def DoubledAt (s : String) (i : Nat) : Prop :=
  0 < i ∧ s.toUTF8.data[i - 1]? = some 0x2f ∧ s.toUTF8.data[i]? = some 0x2f

/-- The same for bytes that are preceded by a separator, or by something else. -/
def Doubled (preceded : Bool) (bs : List UInt8) (i : Nat) : Prop :=
  bs[i]? = some 0x2f ∧
    match i with
    | 0 => preceded = true
    | j + 1 => bs[j]? = some 0x2f

/-- The least byte at which a separator follows a separator. -/
def firstDoubledByte (preceded : Bool) (position : Nat) : List UInt8 → Option Nat
  | [] => none
  | b :: bs =>
      if b = 0x2f ∧ preceded = true then some position
      else firstDoubledByte (b = 0x2f) (position + 1) bs

/-- The byte of the first separator that follows a separator. -/
def firstDoubled (preceded : Bool) (position : Nat) : List Char → Option Nat
  | [] => none
  | c :: cs =>
      if c = separator ∧ preceded = true then some position
      else firstDoubled (c = separator) (position + c.utf8Size) cs

theorem doubledAt_iff {i : Nat} : DoubledAt s i ↔ Doubled false (bytes s.toList) i := by
  cases i with
  | zero => simp [DoubledAt, Doubled]
  | succ j => simp [DoubledAt, Doubled, ← bytes_toList, and_comm]

theorem doubled_zero {preceded : Bool} {b : UInt8} {bs : List UInt8} :
    Doubled preceded (b :: bs) 0 ↔ b = 0x2f ∧ preceded = true := by
  simp [Doubled]

theorem doubled_succ {preceded : Bool} {b : UInt8} {bs : List UInt8} {i : Nat} :
    Doubled preceded (b :: bs) (i + 1) ↔ Doubled (b = 0x2f) bs i := by
  cases i with
  | zero => simp [Doubled]
  | succ j => simp [Doubled]

/-- The byte that is found is the least one, and if none is found there is none. -/
theorem firstDoubledByte_spec (preceded : Bool) (position : Nat) (bs : List UInt8) :
    match firstDoubledByte preceded position bs with
    | some n => ∃ i, n = position + i ∧ Doubled preceded bs i ∧ ∀ j < i, ¬Doubled preceded bs j
    | none => ∀ i, ¬Doubled preceded bs i := by
  induction bs generalizing preceded position with
  | nil =>
      intro i h
      simpa using h.1
  | cons b bs ih =>
      rw [firstDoubledByte]
      by_cases hb : b = 0x2f ∧ preceded = true
      · rw [if_pos hb]
        exact ⟨0, rfl, doubled_zero.2 hb, fun j hj => absurd hj (Nat.not_lt_zero j)⟩
      · rw [if_neg hb]
        have hrest := ih (b = 0x2f) (position + 1)
        cases hf : firstDoubledByte (b = 0x2f) (position + 1) bs with
        | none =>
            rw [hf] at hrest
            intro i hi
            cases i with
            | zero => exact hb (doubled_zero.1 hi)
            | succ j => exact hrest j (doubled_succ.1 hi)
        | some n =>
            rw [hf] at hrest
            obtain ⟨i, hn, hi, hleast⟩ := hrest
            refine ⟨i + 1, by omega, doubled_succ.2 hi, fun j hj hdoubled => ?_⟩
            cases j with
            | zero => exact hb (doubled_zero.1 hdoubled)
            | succ j => exact hleast j (Nat.lt_of_succ_lt_succ hj) (doubled_succ.1 hdoubled)

/-- Bytes without a separator are passed over. -/
theorem firstDoubledByte_append {es : List UInt8} (hes : es ≠ []) (hfree : (0x2f : UInt8) ∉ es)
    (preceded : Bool) (position : Nat) (bs : List UInt8) :
    firstDoubledByte preceded position (es ++ bs) =
      firstDoubledByte false (position + es.length) bs := by
  induction es generalizing preceded position with
  | nil => exact absurd rfl hes
  | cons e es ih =>
      obtain ⟨he, hfree⟩ := not_or.1 (mt List.mem_cons.2 hfree)
      rw [List.cons_append, firstDoubledByte, if_neg fun h => he h.1.symm,
        decide_eq_false (Ne.symm he)]
      cases es with
      | nil => rfl
      | cons e' es =>
          rw [ih (List.cons_ne_nil _ _) hfree, Nat.add_right_comm]
          rfl

/-- Looking for it in the characters or in their bytes is the same. -/
theorem firstDoubled_eq (preceded : Bool) (position : Nat) (cs : List Char) :
    firstDoubled preceded position cs = firstDoubledByte preceded position (bytes cs) := by
  induction cs generalizing preceded position with
  | nil => rfl
  | cons c cs ih =>
      rw [firstDoubled, bytes, List.flatMap_cons]
      by_cases hc : c = separator
      · subst hc
        have hsize : separator.utf8Size = 1 := by decide
        rw [utf8EncodeChar_separator, List.singleton_append, firstDoubledByte, ih, hsize]
        simp only [true_and, decide_true]
        rfl
      · have hne : String.utf8EncodeChar c ≠ [] := by
          intro hnil
          have hlength := String.length_utf8EncodeChar c
          rw [hnil] at hlength
          exact absurd c.utf8Size_pos (by rw [← hlength]; exact Nat.lt_irrefl 0)
        rw [if_neg fun h => hc h.1, firstDoubledByte_append hne (notMem_utf8EncodeChar hc),
          String.length_utf8EncodeChar, ih, decide_eq_false hc]
        rfl

/-- **The first doubled separator of a text** is the least byte at which there is one. -/
theorem firstDoubled_spec (s : String) :
    match firstDoubled false 0 s.toList with
    | some n => DoubledAt s n ∧ ∀ j < n, ¬DoubledAt s j
    | none => ∀ i, ¬DoubledAt s i := by
  have h := firstDoubledByte_spec false 0 (bytes s.toList)
  rw [← firstDoubled_eq] at h
  cases hf : firstDoubled false 0 s.toList with
  | none =>
      rw [hf] at h
      exact fun i hi => h i (doubledAt_iff.1 hi)
  | some n =>
      rw [hf] at h
      obtain ⟨i, hn, hi, hleast⟩ := h
      obtain rfl : n = i := hn.trans (Nat.zero_add i)
      exact ⟨doubledAt_iff.2 hi, fun j hj hj' => hleast j hj (doubledAt_iff.1 hj')⟩

/-! ### Pieces -/

theorem pieces_separator (cs : List Char) : pieces (separator :: cs) = [] :: pieces cs := by
  rw [pieces, if_pos rfl]

theorem pieces_cons_of_ne {ps : List (List Char)} (hc : c ≠ separator) (h : pieces cs = ds :: ps) :
    pieces (c :: cs) = (c :: ds) :: ps := by
  rw [pieces, if_neg hc, h]

theorem exists_pieces (cs : List Char) : ∃ p ps, pieces cs = p :: ps := by
  induction cs with
  | nil => exact ⟨[], [], rfl⟩
  | cons c cs ih =>
      obtain ⟨p, ps, h⟩ := ih
      by_cases hc : c = separator
      · subst hc
        exact ⟨[], pieces cs, pieces_separator cs⟩
      · exact ⟨c :: p, ps, pieces_cons_of_ne hc h⟩

/-- A separator at the end adds an empty piece. -/
theorem pieces_append_separator (cs : List Char) :
    pieces (cs ++ [separator]) = pieces cs ++ [[]] := by
  induction cs with
  | nil => rfl
  | cons c cs ih =>
      obtain ⟨p, ps, h⟩ := exists_pieces cs
      rw [List.cons_append]
      by_cases hc : c = separator
      · subst hc
        rw [pieces_separator, pieces_separator, ih, List.cons_append]
      · rw [pieces_cons_of_ne hc h, pieces_cons_of_ne hc (ih.trans (congrArg (· ++ [[]]) h))]
        rfl

/-- The pieces before and after a separator. -/
theorem pieces_append (hfree : separator ∉ ds) :
    pieces ds = [ds] ∧ ∀ cs, pieces (ds ++ separator :: cs) = ds :: pieces cs := by
  induction ds with
  | nil => exact ⟨rfl, pieces_separator⟩
  | cons d ds ih =>
      obtain ⟨hd, hfree⟩ := not_or.1 (mt List.mem_cons.2 hfree)
      obtain ⟨halone, hbefore⟩ := ih hfree
      exact ⟨pieces_cons_of_ne (Ne.symm hd) halone,
        fun cs => pieces_cons_of_ne (Ne.symm hd) (hbefore cs)⟩

/-- The non-empty pieces. -/
def filled (cs : List Char) : List (List Char) := (pieces cs).filter (· ≠ [])

theorem splitNames_eq (s : String) : splitNames s = (filled s.toList).map String.ofList := rfl

theorem filled_separator (cs : List Char) : filled (separator :: cs) = filled cs := by
  rw [filled, pieces_separator, List.filter_cons_of_neg (by simp)]
  rfl

theorem filled_append_separator (cs : List Char) : filled (cs ++ [separator]) = filled cs := by
  rw [filled, pieces_append_separator, List.filter_append, List.filter_cons_of_neg (by simp),
    List.filter_nil, List.append_nil]
  rfl

/-- A good name is a piece of its own, at the end or before a separator. -/
theorem filled_append (hds : ds ≠ []) (hfree : separator ∉ ds) :
    filled ds = [ds] ∧ ∀ cs, filled (ds ++ separator :: cs) = ds :: filled cs := by
  obtain ⟨halone, hbefore⟩ := pieces_append hfree
  constructor
  · rw [filled, halone, List.filter_cons_of_pos (by simpa using hds)]
    rfl
  · intro cs
    rw [filled, hbefore, List.filter_cons_of_pos (by simpa using hds)]
    rfl

/-- No piece contains the separator. -/
theorem separator_notMem_of_mem_pieces (h : ds ∈ pieces cs) : separator ∉ ds := by
  induction cs generalizing ds with
  | nil =>
      obtain rfl := List.mem_singleton.1 h
      exact List.not_mem_nil
  | cons c cs ih =>
      obtain ⟨p, ps, hps⟩ := exists_pieces cs
      by_cases hc : c = separator
      · subst hc
        rw [pieces_separator] at h
        rcases List.mem_cons.1 h with rfl | h
        · exact List.not_mem_nil
        · exact ih h
      · rw [pieces_cons_of_ne hc hps] at h
        rcases List.mem_cons.1 h with rfl | h
        · intro hmem
          rcases List.mem_cons.1 hmem with heq | hmem
          · exact hc heq.symm
          · exact ih (hps ▸ List.mem_cons_self) hmem
        · exact ih (hps ▸ List.mem_cons_of_mem _ h)

/-- Only non-empty pieces become names. -/
theorem goodName_of_mem_splitNames (h : name ∈ splitNames s) : GoodName name := by
  obtain ⟨ds, hds, rfl⟩ := List.mem_map.1 h
  obtain ⟨hmem, hne⟩ := List.mem_filter.1 hds
  rw [GoodName, String.toList_ofList]
  exact ⟨of_decide_eq_true hne, separator_notMem_of_mem_pieces hmem⟩

/-- A good name is its only piece. -/
theorem splitNames_of_goodName (h : GoodName s) : splitNames s = [s] := by
  rw [splitNames_eq, (filled_append h.1 h.2).1]
  exact congrArg (· :: []) String.ofList_toList

/-! ### Strict reading -/

theorem byteLength_append (cs ds : List Char) :
    byteLength (cs ++ ds) = byteLength cs + byteLength ds := by
  induction cs with
  | nil => exact (Nat.zero_add _).symm
  | cons c cs ih =>
      have hcons : ∀ es, byteLength (c :: es) = c.utf8Size + byteLength es := fun _ => rfl
      rw [List.cons_append, hcons, hcons, ih, Nat.add_assoc]

/-- **Reading the pieces** of a text fails at the first separator that follows a separator, where
the text counts as standing between two.  Of the first piece a part, `ds`, has been seen already. -/
theorem readPieces_pieces {piece : List Char} {rest : List (List Char)}
    (h : pieces cs = piece :: rest) (ds : List Char) (position : Nat) :
    readPieces position ((ds ++ piece) :: rest) =
      match firstDoubled (ds = []) (position + byteLength ds) (cs ++ [separator]) with
      | some i => .error (.emptyElement i)
      | none => .ok (((ds ++ piece) :: rest).map String.ofList) := by
  induction cs generalizing piece rest ds position with
  | nil =>
      obtain ⟨rfl, rfl⟩ := List.cons.inj h
      rw [List.append_nil, readPieces]
      by_cases hds : ds = []
      · subst hds
        simp [firstDoubled, byteLength]
      · simp [firstDoubled, hds, readPieces, Except.map]
  | cons c cs ih =>
      obtain ⟨next, others, hnext⟩ := exists_pieces cs
      rw [List.cons_append, firstDoubled]
      by_cases hc : c = separator
      -- the piece ends: it is refused if it is empty
      · subst hc
        rw [pieces_separator, hnext] at h
        obtain ⟨rfl, rfl⟩ := List.cons.inj h
        have hsize : separator.utf8Size = 1 := by decide
        have hrest := ih hnext [] (position + byteLength ds + 1)
        rw [List.append_nil, readPieces, hsize]
        by_cases hds : ds = []
        · subst hds
          simp [byteLength]
        · have hnil : byteLength [] = 0 := rfl
          rw [List.nil_append, hnil, Nat.add_zero, decide_eq_true rfl] at hrest
          rw [if_neg hds, hrest, if_neg (by simp [hds]), decide_eq_true rfl]
          cases firstDoubled true (position + byteLength ds + 1) (cs ++ [separator]) with
          | none => rfl
          | some i => rfl
      -- the piece goes on
      · rw [pieces_cons_of_ne hc hnext] at h
        obtain ⟨rfl, rfl⟩ := List.cons.inj h
        have hrest := ih hnext (ds ++ [c]) position
        have hlength : byteLength [c] = c.utf8Size := Nat.add_zero _
        rw [List.append_assoc, List.singleton_append, byteLength_append, hlength,
          ← Nat.add_assoc, decide_eq_false (by simp)] at hrest
        rw [if_neg fun h => hc h.1, decide_eq_false hc]
        exact hrest

/-- Pieces that can be read are not empty. -/
theorem readPieces_eq_ok {pieces : List (List Char)} {position : Nat} {names : List String}
    (h : readPieces position pieces = .ok names) :
    names = (pieces.filter (· ≠ [])).map String.ofList := by
  induction pieces generalizing position names with
  | nil => exact (Except.ok.inj h).symm
  | cons piece rest ih =>
      rw [readPieces] at h
      split at h
      · simp at h
      · rename_i hpiece
        cases hrest : readPieces (position + byteLength piece + 1) rest with
        | error e => simp [hrest, Except.map] at h
        | ok others =>
            rw [hrest] at h
            obtain rfl := Except.ok.inj h
            rw [List.filter_cons_of_pos (by simpa using hpiece), List.map_cons, ← ih hrest]

/-- A leading separator counts as the separator before the text. -/
theorem firstDoubled_dropLeading (cs : List Char) :
    firstDoubled true (byteLength cs - byteLength (dropLeading cs)) (dropLeading cs) =
      firstDoubled false 0 cs := by
  cases cs with
  | nil => rfl
  | cons c cs =>
      have hcons : byteLength (c :: cs) = c.utf8Size + byteLength cs := rfl
      by_cases hc : c = separator
      · rw [dropLeading, if_pos hc, hcons, Nat.add_sub_cancel_right, firstDoubled, if_neg (by simp),
          decide_eq_true hc, Nat.zero_add]
      · rw [dropLeading, if_neg hc, Nat.sub_self, firstDoubled, firstDoubled,
          if_neg fun h => hc h.1, if_neg fun h => hc h.1]

/-- A separator after something else is not doubled. -/
theorem firstDoubled_append_separator {ds : List Char} (hds : ds ≠ [])
    (hlast : ds.getLast? ≠ some separator) (preceded : Bool) (position : Nat) :
    firstDoubled preceded position (ds ++ [separator]) = firstDoubled preceded position ds := by
  induction ds generalizing preceded position with
  | nil => exact absurd rfl hds
  | cons d ds ih =>
      rw [List.cons_append, firstDoubled, firstDoubled]
      cases ds with
      | nil =>
          have hd : d ≠ separator := by simpa using hlast
          rw [decide_eq_false hd]
          rfl
      | cons d' ds => rw [ih (List.cons_ne_nil _ _) (by simpa using hlast)]

/-- A trailing separator counts as the separator after the text. -/
theorem firstDoubled_dropTrailing {ds : List Char} (h : dropTrailing ds ≠ []) (preceded : Bool)
    (position : Nat) : firstDoubled preceded position (dropTrailing ds ++ [separator]) =
      firstDoubled preceded position ds := by
  rw [dropTrailing] at h ⊢
  split
  · rename_i hlast
    rw [List.dropLast_append_getLast? separator hlast]
  · rename_i hlast
    rw [if_neg hlast] at h
    exact firstDoubled_append_separator h hlast preceded position

/-- A separator that is dropped leaves the names as they are. -/
theorem filled_dropLeading (cs : List Char) : filled (dropLeading cs) = filled cs := by
  cases cs with
  | nil => rfl
  | cons c cs =>
      rw [dropLeading]
      split
      · rename_i hc
        subst hc
        exact (filled_separator cs).symm
      · rfl

theorem filled_dropTrailing (cs : List Char) : filled (dropTrailing cs) = filled cs := by
  rw [dropTrailing]
  split
  · rename_i hlast
    rw [← filled_append_separator, List.dropLast_append_getLast? separator hlast]
  · rfl

theorem eq_nil_or_of_dropTrailing (h : dropTrailing cs = []) : cs = [] ∨ cs = [separator] := by
  rw [dropTrailing] at h
  split at h
  · rename_i hlast
    have hback := List.dropLast_append_getLast? separator hlast
    rw [h] at hback
    exact .inr hback.symm
  · exact .inl h

/-- Nothing is left of a text only if it is a separator or less, or two of them. -/
theorem toList_of_body_eq_nil (h : dropTrailing (dropLeading cs) = []) :
    cs = [] ∨ cs = [separator] ∨ cs = [separator, separator] := by
  cases cs with
  | nil => exact .inl rfl
  | cons c cs =>
      rw [dropLeading] at h
      split at h
      · rename_i hc
        subst hc
        rcases eq_nil_or_of_dropTrailing h with rfl | rfl
        · exact .inr (.inl rfl)
        · exact .inr (.inr rfl)
      · rename_i hc
        rcases eq_nil_or_of_dropTrailing h with hnil | hone
        · simp at hnil
        · exact absurd (List.cons.inj hone).1 hc

/-- **What strict reading gives**: the text `//` is the root; any other text is refused at its first
doubled separator, and is read as lenient reading does if it has none. -/
theorem parse_eq (s : String) : parse s =
    if s = "//" then .ok root
    else match firstDoubled false 0 s.toList with
      | some i => .error (.emptyElement i)
      | none => .ok (ofText s) := by
  rw [parse]
  by_cases hbody : dropTrailing (dropLeading s.toList) = []
  · rw [if_pos hbody]
    rcases toList_of_body_eq_nil hbody with h | h | h
    · obtain rfl : s = "" := String.toList_inj.1 h
      rfl
    · obtain rfl : s = "/" := String.toList_inj.1 h
      rfl
    · obtain rfl : s = "//" := String.toList_inj.1 h
      rfl
  · have hs : s ≠ "//" := by
      rintro rfl
      exact hbody (by decide)
    obtain ⟨piece, rest, hpieces⟩ := exists_pieces (dropTrailing (dropLeading s.toList))
    have hread := readPieces_pieces hpieces []
      (byteLength s.toList - byteLength (dropLeading s.toList))
    have hnil : byteLength [] = 0 := rfl
    rw [List.nil_append, ← hpieces, hnil, Nat.add_zero, decide_eq_true rfl,
      firstDoubled_dropTrailing hbody, firstDoubled_dropLeading] at hread
    rw [if_neg hbody, if_neg hs, hread]
    cases hfirst : firstDoubled false 0 s.toList with
    | some i => rfl
    | none =>
        rw [hfirst] at hread
        have hnames := readPieces_eq_ok hread
        rw [← filled, filled_dropTrailing, filled_dropLeading] at hnames
        exact congrArg (fun names => Except.ok (Path.mk names)) hnames

/-- Two separators are adjacent exactly if one of them follows a separator. -/
theorem firstDoubled_eq_none_iff (preceded : Bool) (position : Nat) (cs : List Char) :
    firstDoubled preceded position cs = none ↔
      ¬(preceded = true ∧ cs.head? = some separator) ∧ ¬[separator, separator] <:+: cs := by
  induction cs generalizing preceded position with
  | nil => simp [firstDoubled]
  | cons c cs ih =>
      have hprefix : [separator, separator] <+: c :: cs ↔
          c = separator ∧ cs.head? = some separator := by
        cases cs with
        | nil => simp [List.cons_prefix_cons]
        | cons d cs => simp [List.cons_prefix_cons, eq_comm]
      rw [firstDoubled, List.infix_cons_iff, hprefix, List.head?_cons, Option.some_inj, not_or]
      by_cases hc : c = separator ∧ preceded = true
      · rw [if_pos hc]
        simp [hc]
      · rw [if_neg hc, ih, decide_eq_true_iff, and_comm (a := preceded = true)]
        exact (and_iff_right hc).symm

/-! ### Writing and reading back -/

/-- A separator and a good name behind it have no doubled separator. -/
theorem firstDoubled_append_of_good (hds : ds ≠ []) (hfree : separator ∉ ds) (preceded : Bool)
    (position : Nat) (cs : List Char) : firstDoubled preceded position (ds ++ cs) =
      firstDoubled false (position + byteLength ds) cs := by
  induction ds generalizing preceded position with
  | nil => exact absurd rfl hds
  | cons d ds ih =>
      obtain ⟨hd, hfree⟩ := not_or.1 (mt List.mem_cons.2 hfree)
      have hcons : byteLength (d :: ds) = d.utf8Size + byteLength ds := rfl
      rw [List.cons_append, firstDoubled, if_neg fun h => hd h.1.symm,
        decide_eq_false (Ne.symm hd), hcons, ← Nat.add_assoc]
      cases ds with
      | nil => rfl
      | cons d' ds => exact ih (List.cons_ne_nil _ _) hfree _ _

/-- The characters of names that are written one after the other, each with a separator before. -/
def written (names : List String) : List Char := names.flatMap fun s => separator :: s.toList

theorem toList_toText (h : p.names ≠ []) : p.toText.toList = written p.names := by
  rw [toText, if_neg (by simpa using h), String.toList_join, List.flatMap_map]
  refine List.flatMap_congr fun s _ => ?_
  rw [String.toList_append]
  rfl

theorem firstDoubled_written {names : List String} (h : ∀ s ∈ names, GoodName s) (position : Nat) :
    firstDoubled false position (written names) = none := by
  induction names generalizing position with
  | nil => rfl
  | cons s names ih =>
      obtain ⟨hs, hnames⟩ := List.forall_mem_cons.1 h
      rw [written, List.flatMap_cons, List.cons_append, firstDoubled, if_neg (by simp),
        firstDoubled_append_of_good hs.1 hs.2]
      exact ih hnames _

theorem filled_written {names : List String} (h : ∀ s ∈ names, GoodName s) :
    filled (written names) = names.map String.toList := by
  induction names with
  | nil => rfl
  | cons s names ih =>
      obtain ⟨hs, hnames⟩ := List.forall_mem_cons.1 h
      obtain ⟨halone, hbefore⟩ := filled_append hs.1 hs.2
      have hrest := ih hnames
      rw [written, List.flatMap_cons, List.cons_append, filled_separator, List.map_cons]
      -- the name is the last one, or a separator follows it
      cases names with
      | nil =>
          rw [List.flatMap_nil, List.append_nil, halone]
          rfl
      | cons s' names =>
          rw [written, List.flatMap_cons, List.cons_append, filled_separator] at hrest
          rw [List.flatMap_cons, List.cons_append, hbefore, hrest]

/-- **A path with good names is what its text reads as.** -/
theorem parse_toText (h : p.WellFormed) : parse p.toText = .ok p := by
  obtain ⟨names⟩ := p
  by_cases hnames : names = []
  · subst hnames
    rfl
  · have htext := toList_toText (p := ⟨names⟩) hnames
    have hnone := firstDoubled_written h 0
    rw [← htext] at hnone
    have hne : toText ⟨names⟩ ≠ "//" := by
      intro heq
      rw [heq] at hnone
      exact absurd hnone (by decide)
    have hback : splitNames (toText ⟨names⟩) = names := by
      rw [splitNames_eq, htext, filled_written h, List.map_map]
      exact (List.map_congr_left fun s _ => String.ofList_toList).trans (List.map_id _)
    rw [parse_eq, if_neg hne, hnone]
    exact congrArg (fun names => Except.ok (Path.mk names)) hback

/-! ### Constructors -/

theorem checkName_eq_ok : checkName s = .ok name ↔ GoodName s ∧ s = name := by
  rw [checkName, GoodName]
  split
  · rename_i hs
    simp [hs]
  · rename_i hs
    split
    · rename_i hmem
      simp [hmem]
    · rename_i hmem
      simp [hs, hmem]

/-- A list of names is accepted exactly if all of them are good, and then as it is. -/
theorem checkNames_eq_ok {ss names : List String} :
    checkNames ss = .ok names ↔ (∀ s ∈ ss, GoodName s) ∧ ss = names := by
  induction ss generalizing names with
  | nil => simp [checkNames]
  | cons s ss ih =>
      rw [checkNames, List.forall_mem_cons]
      cases hs : checkName s with
      | error e =>
          have hbad : ¬GoodName s := by
            intro hgood
            rw [checkName_eq_ok.2 ⟨hgood, rfl⟩] at hs
            simp at hs
          simp [hbad]
      | ok s' =>
          obtain ⟨hgood, rfl⟩ := checkName_eq_ok.1 hs
          cases hss : checkNames ss with
          | error e =>
              have hbad : ¬∀ s ∈ ss, GoodName s := by
                intro hgood
                rw [ih.2 ⟨hgood, rfl⟩] at hss
                simp at hss
              simp [hbad]
          | ok ss' =>
              obtain ⟨hall, rfl⟩ := ih.1 hss
              exact ⟨fun h => ⟨⟨hgood, hall⟩, Except.ok.inj h⟩, fun h => congrArg Except.ok h.2⟩

/-- **The strict constructor of a list of names** makes a path exactly of good names, and then the
path that the lenient one makes. -/
theorem ofNames?_eq_ok {ss : List String} :
    ofNames? ss = .ok p ↔ (∀ s ∈ ss, GoodName s) ∧ p = ofNames ss := by
  have hlenient : (∀ s ∈ ss, GoodName s) → ofNames ss = ⟨ss⟩ := by
    intro hgood
    have hpieces : ss.flatMap splitNames = ss.flatMap fun s => [s] :=
      List.flatMap_congr fun s hs => splitNames_of_goodName (hgood s hs)
    rw [ofNames, hpieces, List.flatMap_singleton']
  rw [ofNames?]
  constructor
  · intro h
    cases hnames : checkNames ss with
    | error e => simp [hnames, Except.map] at h
    | ok names =>
        obtain ⟨hgood, rfl⟩ := checkNames_eq_ok.1 hnames
        rw [hnames] at h
        exact ⟨hgood, (Except.ok.inj h).symm.trans (hlenient hgood).symm⟩
  · rintro ⟨hgood, rfl⟩
    rw [checkNames_eq_ok.2 ⟨hgood, rfl⟩, hlenient hgood]
    rfl

/-- A path goes on by a good name as it is. -/
theorem child_eq_push (h : GoodName s) : p.child s = p.push s := by
  rw [child, splitNames_of_goodName h]
  rfl

/-- **The strict constructor of a child** makes one exactly of a good name, and then the one that
the lenient constructor makes. -/
theorem child?_eq_ok : p.child? s = .ok q ↔ GoodName s ∧ q = p.child s := by
  rw [child?]
  constructor
  · intro h
    cases hname : checkName s with
    | error e => simp [hname, Except.map] at h
    | ok name =>
        obtain ⟨hgood, rfl⟩ := checkName_eq_ok.1 hname
        rw [hname] at h
        exact ⟨hgood, (Except.ok.inj h).symm.trans (child_eq_push hgood).symm⟩
  · rintro ⟨hgood, rfl⟩
    rw [checkName_eq_ok.2 ⟨hgood, rfl⟩, child_eq_push hgood]
    rfl

/-- What strict reading accepts, lenient reading makes the same of. -/
theorem eq_ofText_of_parse (h : parse s = .ok p) : p = ofText s := by
  rw [parse_eq] at h
  split at h
  · rename_i hs
    subst hs
    exact (Except.ok.inj h).symm
  · split at h
    · simp at h
    · exact (Except.ok.inj h).symm

/-! ### All ways to make a path -/

/-- The paths that can be made of texts, and of paths that can be made. -/
inductive Built : Path → Prop
  /-- Of any names, leniently. -/
  | ofNames (ss : List String) : Built (ofNames ss)
  /-- Of good names. -/
  | ofNames? {ss : List String} {p : Path} (h : ofNames? ss = .ok p) : Built p
  /-- Read leniently. -/
  | ofText (s : String) : Built (ofText s)
  /-- Read strictly. -/
  | parse {s : String} {p : Path} (h : parse s = .ok p) : Built p
  /-- A child of any name. -/
  | child {p : Path} (h : Built p) (s : String) : Built (p.child s)
  /-- A child of a good name. -/
  | child? {p q : Path} {s : String} (h : Built p) (hq : p.child? s = .ok q) : Built q
  /-- The parent. -/
  | parent {p q : Path} (h : Built p) (hq : p.parent? = some q) : Built q
  /-- A path above. -/
  | ancestor {p q : Path} (h : Built p) (hq : q ∈ p.ancestors) : Built q
  /-- One path followed by another. -/
  | append {p q : Path} (h : Built p) (h' : Built q) : Built (p.append q)
  /-- A path below another one, put elsewhere. -/
  | rebase {p q old new : Path} (h : Built p) (hnew : Built new) (hq : p.rebase? old new = some q) :
      Built q

theorem wellFormed_ofText (s : String) : (ofText s).WellFormed :=
  fun _ => goodName_of_mem_splitNames

theorem wellFormed_ofNames (ss : List String) : (ofNames ss).WellFormed := by
  intro name hname
  obtain ⟨s, -, hmem⟩ := List.mem_flatMap.1 hname
  exact goodName_of_mem_splitNames hmem

theorem WellFormed.child (h : p.WellFormed) (s : String) : (p.child s).WellFormed := by
  intro name hname
  rcases List.mem_append.1 hname with hmem | hmem
  · exact h name hmem
  · exact goodName_of_mem_splitNames hmem

theorem WellFormed.append (h : p.WellFormed) (h' : q.WellFormed) : (p.append q).WellFormed := by
  intro name hname
  rcases List.mem_append.1 hname with hmem | hmem
  · exact h name hmem
  · exact h' name hmem

/-- A path of some of the names. -/
theorem WellFormed.of_subset (h : p.WellFormed) (hsub : q.names ⊆ p.names) : q.WellFormed :=
  fun name hname => h name (hsub hname)

/-- **Every path that can be made has good names.** -/
theorem Built.wellFormed (h : Built p) : p.WellFormed := by
  induction h with
  | ofNames ss => exact wellFormed_ofNames ss
  | ofNames? h => exact (ofNames?_eq_ok.1 h).2 ▸ wellFormed_ofNames _
  | ofText s => exact wellFormed_ofText s
  | parse h => exact eq_ofText_of_parse h ▸ wellFormed_ofText _
  | child _ s ih => exact ih.child s
  | child? _ hq ih => exact (child?_eq_ok.1 hq).2 ▸ ih.child _
  | parent _ hq ih =>
      rw [parent?] at hq
      split at hq
      · simp at hq
      · obtain rfl := Option.some.inj hq
        exact ih.of_subset (List.dropLast_subset _)
  | ancestor _ hq ih =>
      obtain ⟨n, -, rfl⟩ := List.mem_map.1 hq
      exact ih.of_subset (List.take_subset n _)
  | append _ _ ih ih' => exact ih.append ih'
  | @rebase p q old new _ _ hq ih ihnew =>
      rw [rebase?] at hq
      split at hq
      · obtain rfl := Option.some.inj hq
        exact ihnew.append (ih.of_subset (q := ⟨p.names.drop old.names.length⟩)
          (List.drop_subset _ _))
      · simp at hq

/-- **When strict reading fails**: when two separators are adjacent, but for one text. -/
theorem exists_parse_eq_error :
    (∃ e, parse s = .error e) ↔ s ≠ "//" ∧ [separator, separator] <:+: s.toList := by
  have hnone := firstDoubled_eq_none_iff false 0 s.toList
  rw [parse_eq]
  by_cases hs : s = "//"
  · simp [hs]
  · rw [if_neg hs]
    cases hf : firstDoubled false 0 s.toList with
    | none => simp [hs, (hnone.1 hf).2]
    | some i =>
        have hdoubled : [separator, separator] <:+: s.toList := by
          by_contra hno
          rw [hnone.2 ⟨by simp, hno⟩] at hf
          simp at hf
        simp [hs, hdoubled]

/-- **At which byte strict reading fails**: the least one at which a separator follows another. -/
theorem parse_eq_error {e : PathError} : parse s = .error e ↔
    s ≠ "//" ∧ ∃ i, e = .emptyElement i ∧ DoubledAt s i ∧ ∀ j < i, ¬DoubledAt s j := by
  have hspec := firstDoubled_spec s
  rw [parse_eq]
  by_cases hs : s = "//"
  · simp [hs]
  · rw [if_neg hs]
    cases hf : firstDoubled false 0 s.toList with
    | none =>
        rw [hf] at hspec
        constructor
        · intro h
          simp at h
        · rintro ⟨-, i, -, hi, -⟩
          exact absurd hi (hspec i)
    | some n =>
        rw [hf] at hspec
        obtain ⟨hn, hleast⟩ := hspec
        constructor
        · intro h
          exact ⟨hs, n, (Except.error.inj h).symm, hn, hleast⟩
        · rintro ⟨-, i, rfl, hi, hleast'⟩
          -- there is only one least byte
          rcases Nat.lt_trichotomy n i with hlt | rfl | hgt
          · exact absurd hn (hleast' n hlt)
          · rfl
          · exact absurd hi (hleast i hgt)

/-- The adjacent separators of `/ä//b` are its bytes 3 and 4, since `ä` takes two. -/
example : parse "/ä//b" = .error (.emptyElement 4) := by
  decide +kernel

/-- **The text form of paths.**  Strict reading of any text fails exactly if the text is not `//`
and two separators are adjacent in it; it then names the least byte at which there is a separator
that follows a separator; and what it accepts, it reads as lenient reading does.  Every path that
can be made, of any texts and in any number of steps, has names that are not empty and do not
contain the separator, and is what strict reading makes of its text.  A strict constructor succeeds
exactly if every name is not empty and free of separators, and then makes what the lenient one
makes. -/
theorem text_form :
    (∀ s, ((∃ e, parse s = .error e) ↔ s ≠ "//" ∧ [separator, separator] <:+: s.toList) ∧
      (∀ e, parse s = .error e →
        ∃ i, e = .emptyElement i ∧ DoubledAt s i ∧ ∀ j < i, ¬DoubledAt s j) ∧
      ∀ p, parse s = .ok p → p = ofText s) ∧
    (∀ p, Built p →
      (∀ s ∈ p.names, s ≠ "" ∧ separator ∉ s.toList) ∧ parse p.toText = .ok p) ∧
    (∀ ss, ((∃ p, ofNames? ss = .ok p) ↔ ∀ s ∈ ss, s ≠ "" ∧ separator ∉ s.toList) ∧
      ∀ p, ofNames? ss = .ok p → p = ofNames ss) ∧
    ∀ (p : Path) (s : String), ((∃ q, p.child? s = .ok q) ↔ s ≠ "" ∧ separator ∉ s.toList) ∧
      ∀ q, p.child? s = .ok q → q = p.child s := by
  have hgood : ∀ s, GoodName s ↔ s ≠ "" ∧ separator ∉ s.toList := by
    intro s
    rw [GoodName, Ne, String.toList_eq_nil_iff]
  refine ⟨fun s => ⟨exists_parse_eq_error, fun e he => (parse_eq_error.1 he).2,
      fun p => eq_ofText_of_parse⟩,
    fun p hp => ⟨fun s hs => (hgood s).1 (hp.wellFormed s hs), parse_toText hp.wellFormed⟩,
    fun ss => ⟨?_, fun p hp => (ofNames?_eq_ok.1 hp).2⟩,
    fun p s => ⟨?_, fun q hq => (child?_eq_ok.1 hq).2⟩⟩
  · constructor
    · rintro ⟨p, hp⟩
      exact fun s hs => (hgood s).1 ((ofNames?_eq_ok.1 hp).1 s hs)
    · intro h
      exact ⟨_, ofNames?_eq_ok.2 ⟨fun s hs => (hgood s).2 (h s hs), rfl⟩⟩
  · constructor
    · rintro ⟨q, hq⟩
      exact (hgood s).1 (child?_eq_ok.1 hq).1
    · intro h
      exact ⟨_, child?_eq_ok.2 ⟨(hgood s).2 h, rfl⟩⟩

end Path

end TransactionalTree
