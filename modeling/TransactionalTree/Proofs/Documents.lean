/-
**Documents that were written.**

A line with a key that needs no quotes and a value is read as what it says: a truth value, a text
without characters to be escaped, or a number in decimal digits.  A text that was made of lines is
read as what its lines say, one by one.  So a plain document is read from the text that is written
for it, and the library that reads and writes line by line is faithful.

Main definitions:

* `Toml.Reader.Spells`, `Toml.Reader.Says` — characters spell a value, and a line says something;
* `Toml.statementsOf` — what the lines of a plain document say.

Main results:

* `Toml.Reader.spells_scalarText` — **the characters of a value spell it**;
* `Toml.Reader.says_entryLine`, `Toml.Reader.says_headerLine` — what lines say;
* `Toml.parse?_unlines` — the document of a text made of lines;
* `Toml.run_statementsOf` — **what the statements of a plain document make**;
* `Toml.faithful_lineByLine` — **the library is faithful**.
-/

import Mathlib.Data.List.Basic
import Mathlib.Data.List.Forall2
import Mathlib.Data.List.TakeWhile
import TransactionalTree.Toml.Writer

set_option relaxedAutoImplicit false
set_option autoImplicit false

namespace TransactionalTree

/-! ### Decimal digits -/

namespace Text

variable {c : Char} {ds : List Char} {n : Nat}

theorem digit?_of_isDigit (h : c.isDigit = true) : digit? c = some (c.toNat - '0'.toNat) := by
  rw [Char.isDigit, Bool.and_eq_true, decide_eq_true_eq, decide_eq_true_eq] at h
  exact if_pos h

theorem isDigit_of_mem_toDigits (h : c ∈ Nat.toDigits 10 n) : c.isDigit = true :=
  Nat.isDigit_of_mem_toDigits (by decide) (by decide) h

/-- Decimal digits spell the number that they were made of. -/
theorem numberOf_toDigits (n : Nat) : numberOf 10 (Nat.toDigits 10 n) = n := by
  have hfold : numberOf 10 (Nat.toDigits 10 n) = Nat.ofDigitChars 10 (Nat.toDigits 10 n) 0 := by
    refine List.foldl_ext _ _ _ fun m d hd => ?_
    rw [digit?_of_isDigit (isDigit_of_mem_toDigits hd)]
    rfl
  rw [hfold, Nat.ofDigitChars_ten_toDigits]

/-- The digits of a number other than zero do not start with a zero. -/
theorem head?_toDigits_ne_zero (h : n ≠ 0) : (Nat.toDigits 10 n).head? ≠ some '0' := by
  have hdigit : ∀ n < 10, n ≠ 0 → [n.digitChar].head? ≠ some '0' := by decide
  induction n using Nat.strongRecOn with
  | ind n ih =>
      rw [Nat.toDigits_eq_if (by decide)]
      split
      · rename_i hsmall
        exact hdigit n hsmall h
      · rw [List.head?_append_of_ne_nil _ Nat.toDigits_ne_nil]
        exact ih _ (by omega) (by omega)

end Text

namespace Toml

namespace Reader

open Writer

variable {c d : Char} {cs ds : List Char} {n fuel : Nat} {v : Toml} {key : String}
variable {e : String × Toml}

/-! ### Kinds of characters -/

section Kinds

variable {kind : Char → Bool}

theorem ne_of_kind (hc : kind c = true) (hd : kind d = false) : c ≠ d := by
  rintro rfl
  rw [hc] at hd
  exact absurd hd (by decide)

theorem notMem_of_kind (hcs : ∀ c ∈ cs, kind c = true) (hd : kind d = false) : d ∉ cs :=
  fun hmem => ne_of_kind (hcs d hmem) hd rfl

end Kinds

theorem not_isSpace_of_isBare (h : isBare c = true) : isSpace c = false := by
  rw [isSpace, Bool.or_eq_false_iff, decide_eq_false_iff_not, decide_eq_false_iff_not]
  exact ⟨ne_of_kind h (by decide), ne_of_kind h (by decide)⟩

theorem isWord_of_isBare (h : isBare c = true) : isWord c = true := by
  rw [isBare] at h
  rw [isWord, h, Bool.true_or, Bool.true_or]

/-- A character that neither ends a line nor belongs to its end. -/
def isWithinLine (c : Char) : Bool := c ≠ '\n' && c ≠ '\r'

theorem isWithinLine_of_isBare (h : isBare c = true) : isWithinLine c = true := by
  rw [isWithinLine, Bool.and_eq_true, decide_eq_true_eq, decide_eq_true_eq]
  exact ⟨ne_of_kind h (by decide), ne_of_kind h (by decide)⟩

theorem isBare_of_mem_toDigits (h : c ∈ Nat.toDigits 10 n) : isBare c = true := by
  simp [isBare, Char.isAlphanum, Text.isDigit_of_mem_toDigits h]

/-! ### Numbers -/

theorem isPlain_toDigits (n : Nat) : isPlain (Nat.toDigits 10 n) = true := by
  rw [isPlain, Bool.or_eq_true, decide_eq_true_eq, decide_eq_true_eq]
  by_cases h : n = 0
  · exact .inr (by rw [h]; decide)
  · exact .inl (Text.head?_toDigits_ne_zero h)

theorem groups?_go_digits {isDigit : Char → Bool} (hd : ∀ c ∈ ds, isDigit c = true) :
    groups?.go isDigit true ds = some ds := by
  induction ds with
  | nil => rfl
  | cons d ds ih =>
      rw [groups?.go.eq_def]
      dsimp only
      rw [if_pos (hd d List.mem_cons_self),
        ih fun c hc => hd c (List.mem_cons_of_mem d hc)]
      rfl

/-- Digits without underscores between them are read as they are. -/
theorem groups?_digits {isDigit : Char → Bool} (hne : ds ≠ [])
    (hd : ∀ c ∈ ds, isDigit c = true) : groups? isDigit ds = some ds := by
  obtain ⟨d, ds, rfl⟩ := List.exists_cons_of_ne_nil hne
  rw [groups?, groups?.go.eq_def]
  dsimp only
  rw [if_pos (hd d List.mem_cons_self),
    groups?_go_digits fun c hc => hd c (List.mem_cons_of_mem d hc)]
  rfl

theorem decimal?_toDigits (n : Nat) :
    decimal? (Nat.toDigits 10 n) = some (Nat.toDigits 10 n) := by
  rw [decimal?, groups?_digits Nat.toDigits_ne_nil fun _ => Text.isDigit_of_mem_toDigits]
  exact if_pos (isPlain_toDigits n)

/-- Digits with a sign in front, or with none, have no mark of a base in front. -/
theorem integer?_of_sign {negative : Bool}
    (hmark : ∀ c cs', cs = '0' :: c :: cs' → c.isDigit = true)
    (hsign : sign cs = (negative, Nat.toDigits 10 n)) :
    integer? cs = fitting? (if negative then -(n : Int) else n) := by
  unfold integer?
  split
  · exact absurd (hmark 'x' _ rfl) (by decide)
  · exact absurd (hmark 'o' _ rfl) (by decide)
  · exact absurd (hmark 'b' _ rfl) (by decide)
  · rw [hsign]
    simp only [decimal?_toDigits, Option.map_some, Text.numberOf_toDigits, Option.bind_some]

theorem isDigit_of_toDigits (h : Nat.toDigits 10 n = c :: cs) : c.isDigit = true :=
  Text.isDigit_of_mem_toDigits (n := n) (h ▸ List.mem_cons_self)

theorem integer?_toDigits (n : Nat) : integer? (Nat.toDigits 10 n) = fitting? n := by
  have hsign : sign (Nat.toDigits 10 n) = (false, Nat.toDigits 10 n) := by
    unfold sign
    split
    · rename_i heq
      exact absurd (isDigit_of_toDigits heq) (by decide)
    · rename_i heq
      exact absurd (isDigit_of_toDigits heq) (by decide)
    · rfl
  refine integer?_of_sign (fun c cs' heq => ?_) hsign
  exact Text.isDigit_of_mem_toDigits (n := n) (by simp [heq])

theorem integer?_minus (n : Nat) : integer? ('-' :: Nat.toDigits 10 n) = fitting? (-n) := by
  have hsign : sign ('-' :: Nat.toDigits 10 n) = (true, Nat.toDigits 10 n) := rfl
  exact integer?_of_sign (by simp) hsign

theorem fitting?_toInt (n : Int64) : fitting? n.toInt = some n := by
  rw [fitting?, if_pos ⟨n.minValue_le_toInt, n.toInt_le⟩, Int64.ofInt_toInt]

/-- **A number is read back from its digits.** -/
theorem integer?_scalarText (n : Int64) : integer? (scalarText (.integer n)) = some n := by
  rw [scalarText, ← fitting?_toInt n]
  cases n.toInt with
  | ofNat m => exact integer?_toDigits m
  | negSucc m => exact integer?_minus (m + 1)

/-! ### Values up to the end of a line -/

/-- **The characters spell the value**, up to the end of the line. -/
structure Spells (cs : List Char) (v : Toml) : Prop where
  /-- There are no blanks in front. -/
  skip : skipSpace cs = cs
  /-- The value is read, and nothing is left. -/
  value : ∀ fuel, value? (fuel + 1) cs = some (v, [])
  /-- The line does not end within the value. -/
  within : ∀ c ∈ cs, isWithinLine c = true

theorem skipSpace_of_head (h : isSpace c = false) : skipSpace (c :: cs) = c :: cs := by
  rw [skipSpace, List.dropWhile_cons_of_neg (by rw [h]; decide)]

/-- A word without sign and point spells what it is read as. -/
theorem spells_word (hne : cs ≠ []) (hcs : ∀ c ∈ cs, isBare c = true) (hv : word? cs = some v) :
    Spells cs v := by
  have hword : ∀ c ∈ cs, isWord c = true := fun c hc => isWord_of_isBare (hcs c hc)
  have hno : ∀ c, isWord c = false → c ∉ cs := fun c => notMem_of_kind hword
  refine ⟨?_, fun fuel => ?_, fun c hc => isWithinLine_of_isBare (hcs c hc)⟩
  · obtain ⟨c, cs, rfl⟩ := List.exists_cons_of_ne_nil hne
    exact skipSpace_of_head (not_isSpace_of_isBare (hcs c List.mem_cons_self))
  · unfold value?
    split
    · exact absurd List.mem_cons_self (hno '"' (by decide))
    · exact absurd List.mem_cons_self (hno '\'' (by decide))
    · exact absurd List.mem_cons_self (hno '\x7b' (by decide))
    · exact absurd List.mem_cons_self (hno '[' (by decide))
    · rw [List.takeWhile_eq_self_iff.2 hword, List.dropWhile_eq_nil_iff.2 hword, hv]
      rfl

theorem spells_boolean (b : Bool) : Spells (toString b).toList (.boolean b) := by
  have hbare : (toString b).toList.all isBare = true := by cases b <;> decide +kernel
  have hne : (toString b).toList ≠ [] := by cases b <;> decide +kernel
  exact spells_word hne (List.all_eq_true.1 hbare) (by cases b <;> rfl)

theorem isBare_of_mem_scalarText {n : Int64} (h : c ∈ scalarText (.integer n)) :
    isBare c = true := by
  rw [scalarText] at h
  cases hn : n.toInt with
  | ofNat m =>
      rw [hn] at h
      exact isBare_of_mem_toDigits h
  | negSucc m =>
      rw [hn] at h
      rcases List.mem_cons.1 h with rfl | h
      · decide
      · exact isBare_of_mem_toDigits h

/-- The characters of a number spell it. -/
theorem spells_integer (n : Int64) : Spells (scalarText (.integer n)) (.integer n) := by
  have hread := integer?_scalarText n
  have hword : ∀ cs, integer? cs = none → scalarText (.integer n) ≠ cs := by
    rintro cs hcs rfl
    rw [hcs] at hread
    exact absurd hread (by simp)
  refine spells_word (hword [] (by decide +kernel)) (fun _ => isBare_of_mem_scalarText) ?_
  rw [word?, if_neg (hword _ (by decide +kernel)), if_neg (hword _ (by decide +kernel)), hread]

theorem isVerbatim_iff : isVerbatim c = true ↔
    ((c ≠ '"' ∧ c ≠ '\\') ∧ 0x20 ≤ c.toNat) ∧ c.toNat ≠ 0x7f := by
  simp only [isVerbatim, Bool.and_eq_true, decide_eq_true_eq]

/-- A character that stands for itself within double quotes is no control character. -/
theorem isControl_of_isVerbatim (h : isVerbatim c = true) : isControl c = false := by
  obtain ⟨⟨-, hlow⟩, hdelete⟩ := isVerbatim_iff.1 h
  simp [isControl, Nat.not_lt.2 hlow, hdelete]

theorem basic?_verbatim (hv : ∀ c ∈ cs, isVerbatim c = true) :
    basic? (cs ++ ['"']) = some (cs, []) := by
  induction cs with
  | nil => simp [basic?]
  | cons c cs ih =>
      rw [List.forall_mem_cons] at hv
      obtain ⟨⟨⟨hquote, hslash⟩, -⟩, -⟩ := isVerbatim_iff.1 hv.1
      rw [List.cons_append, basic?]
      · simp [hslash, isControl_of_isVerbatim hv.1, ih hv.2]
      all_goals simp [hquote, hslash]

theorem isWithinLine_of_isVerbatim (h : isVerbatim c = true) : isWithinLine c = true := by
  rw [isWithinLine, Bool.and_eq_true, decide_eq_true_eq, decide_eq_true_eq]
  exact ⟨ne_of_kind h (by decide), ne_of_kind h (by decide)⟩

/-- A text between double quotes spells itself if nothing in it has to be escaped. -/
theorem spells_string {s : String} (h : s.toList.all isVerbatim = true) :
    Spells ('"' :: (s.toList ++ ['"'])) (.string s) := by
  have hv := List.all_eq_true.1 h
  refine ⟨skipSpace_of_head (by decide), fun fuel => ?_, ?_⟩
  · rw [value?, basic?_verbatim hv, Option.map_some, String.ofList_toList]
  · simp only [List.forall_mem_cons, List.forall_mem_append]
    exact ⟨by decide, fun c hc => isWithinLine_of_isVerbatim (hv c hc), by decide, by simp⟩

/-! ### Keys -/

theorem isBareKey_iff :
    isBareKey key = true ↔ key.toList ≠ [] ∧ ∀ c ∈ key.toList, isBare c = true := by
  rw [isBareKey, Bool.and_eq_true, List.all_eq_true, Bool.not_eq_true', List.isEmpty_eq_false_iff]

/-- A key that needs no quotes has a first character. -/
theorem exists_of_isBareKey (hk : isBareKey key = true) :
    ∃ k ks, key.toList = k :: ks ∧ isBare k = true := by
  obtain ⟨hne, hall⟩ := isBareKey_iff.1 hk
  obtain ⟨k, ks, hkey⟩ := List.exists_cons_of_ne_nil hne
  exact ⟨k, ks, hkey, hall k (hkey ▸ List.mem_cons_self)⟩

theorem simpleKey?_bare (hk : isBareKey key = true) (hc : isBare c = false) :
    simpleKey? (key.toList ++ c :: cs) = some (key, c :: cs) := by
  have hall := (isBareKey_iff.1 hk).2
  obtain ⟨k, ks, hkey, hbare⟩ := exists_of_isBareKey hk
  have htake : (key.toList ++ c :: cs).takeWhile isBare = key.toList := by
    rw [List.takeWhile_append_of_pos hall, List.takeWhile_cons_of_neg (by rw [hc]; decide),
      List.append_nil]
  have hdrop : (key.toList ++ c :: cs).dropWhile isBare = c :: cs := by
    rw [List.dropWhile_append_of_pos hall, List.dropWhile_cons_of_neg (by rw [hc]; decide)]
  unfold simpleKey?
  split
  · rename_i heq
    rw [hkey] at heq
    exact absurd (List.cons.inj heq).1 (ne_of_kind hbare (by decide))
  · rename_i heq
    rw [hkey] at heq
    exact absurd (List.cons.inj heq).1 (ne_of_kind hbare (by decide))
  · simp only [htake, hdrop, String.ofList_toList]
    exact if_neg (by simp [hkey])

/-- A key without quotes is read up to its end, with the blanks behind it, if no dot follows. -/
theorem key?_bare (hk : isBareKey key = true) (hc : isBare c = false)
    (hdot : ∀ rest, skipSpace (c :: cs) ≠ '.' :: rest) :
    key? (key.toList ++ c :: cs) = some ((key, []), skipSpace (c :: cs)) := by
  have hskip : skipSpace (key.toList ++ c :: cs) = key.toList ++ c :: cs := by
    obtain ⟨k, ks, hkey, hbare⟩ := exists_of_isBareKey hk
    rw [hkey]
    exact skipSpace_of_head (not_isSpace_of_isBare hbare)
  have hmore : moreKeys? ((c :: cs).length + 1) (c :: cs) = some ([], skipSpace (c :: cs)) := by
    rw [moreKeys?]
    split
    · rename_i heq
      exact absurd heq (hdot _)
    · rfl
  rw [key?, hskip, simpleKey?_bare hk hc]
  simp only [hmore, Option.map_some]

/-! ### Lines -/

/-- **The line says this.** -/
structure Says (l : List Char) (s : Statement) : Prop where
  /-- It is read as that. -/
  read : statement? l = some s
  /-- The line does not end before. -/
  within : ∀ c ∈ l, isWithinLine c = true

theorem says_blank : Says [] .blank := ⟨rfl, by simp⟩

/-- The characters of a value spell it. -/
theorem spells_scalarText (hv : v.isScalar = true) : Spells (scalarText v) v := by
  cases v with
  | string s => exact spells_string hv
  | integer n => exact spells_integer n
  | boolean b => exact spells_boolean b
  | float => simp [isScalar] at hv
  | array items => simp [isScalar] at hv
  | table entries => simp [isScalar] at hv

/-- **A line with a key and a value** says that the key has the value. -/
theorem says_entryLine (hk : isBareKey e.1 = true) (hv : e.2.isScalar = true) :
    Says (entryLine e) (.assignment e.1 [] e.2) := by
  have h := spells_scalarText hv
  have hread : key? (entryLine e) = some ((e.1, []), '=' :: ' ' :: scalarText e.2) := by
    rw [entryLine, key?_bare hk (by decide) (by simp [skipSpace, isSpace])]
    rfl
  have hskip : skipSpace (' ' :: scalarText e.2) = scalarText e.2 := h.skip
  obtain ⟨k, ks, hkey, hbare⟩ := exists_of_isBareKey hk
  have hcons : entryLine e = k :: (ks ++ ' ' :: '=' :: ' ' :: scalarText e.2) := by
    rw [entryLine, hkey, List.cons_append]
  have hline : skipSpace (entryLine e) = entryLine e := by
    rw [hcons]
    exact skipSpace_of_head (not_isSpace_of_isBare hbare)
  have hdone : isDone (entryLine e) = false := by
    have hmark : k ≠ '#' := ne_of_kind hbare (by decide)
    rw [isDone, hline, hcons]
    simp [hmark]
  constructor
  · rw [statement?, if_neg (by rw [hdone]; decide), hline]
    split
    · rename_i heq
      exact absurd (List.cons.inj (hcons.symm.trans heq)).1 (ne_of_kind hbare (by decide))
    · rw [hread]
      simp only
      rw [hskip, h.value]
      rfl
  · simp only [entryLine, List.forall_mem_append, List.forall_mem_cons]
    exact ⟨fun c hc => isWithinLine_of_isBare ((isBareKey_iff.1 hk).2 c hc), by decide, by decide,
      by decide, h.within⟩

/-- **The header of a table** says that the lines below belong to the table. -/
theorem says_headerLine (hk : isBareKey key = true) : Says (headerLine key) (.header key []) := by
  have hread : key? (key.toList ++ [']']) = some ((key, []), [']']) := by
    rw [key?_bare hk (by decide) (by simp [skipSpace, isSpace])]
    rfl
  have hline : skipSpace (headerLine key) = '[' :: (key.toList ++ [']']) :=
    skipSpace_of_head (by decide)
  have hdone : isDone (headerLine key) = false := by
    rw [isDone, hline]
    rfl
  constructor
  · rw [statement?, if_neg (by rw [hdone]; decide), hline]
    simp only [hread]
    rfl
  · simp only [headerLine, List.forall_mem_append, List.forall_mem_cons]
    exact ⟨by decide, fun c hc => isWithinLine_of_isBare ((isBareKey_iff.1 hk).2 c hc), by decide,
      by simp⟩

/-! ### Documents -/

theorem rawLines_append_feed {l : List Char} (h : '\n' ∉ l) :
    rawLines (l ++ '\n' :: cs) = l :: rawLines cs := by
  induction l with
  | nil => simp [rawLines]
  | cons c l ih =>
      rw [List.mem_cons, not_or] at h
      rw [List.cons_append, rawLines, if_neg (Ne.symm h.1), ih h.2]

theorem rawLines_unlines {ls : List (List Char)} (h : ∀ l ∈ ls, '\n' ∉ l) :
    rawLines (unlines ls) = ls ++ [[]] := by
  induction ls with
  | nil => rfl
  | cons l ls ih =>
      have hcons : unlines (l :: ls) = l ++ '\n' :: unlines ls := by simp [unlines]
      rw [hcons, rawLines_append_feed (h l List.mem_cons_self),
        ih fun l hl => h l (List.mem_cons_of_mem _ hl), List.cons_append]

/-- **The lines of a text made of lines**, and the empty one behind the last line feed. -/
theorem lines_unlines {ls : List (List Char)} (h : ∀ l ∈ ls, ∀ c ∈ l, isWithinLine c = true) :
    lines (unlines ls) = ls ++ [[]] := by
  have hdrop : ∀ l ∈ ls, dropReturn l = l := fun l hl =>
    if_neg fun hlast => absurd (h l hl _ (List.mem_of_getLast? hlast)) (by decide)
  rw [lines, rawLines_unlines fun l hl hc => absurd (h l hl _ hc) (by decide)]
  simp [List.map_congr_left hdrop]

theorem mapM_of_lines {ls : List (List Char)} {ss : List Statement} (h : List.Forall₂ Says ls ss) :
    ls.mapM statement? = some ss := by
  induction h with
  | nil => rfl
  | cons hl _ ih =>
      rw [List.mapM_cons, hl.read, ih]
      rfl

theorem isWithinLine_of_lines {ls : List (List Char)} {ss : List Statement}
    (h : List.Forall₂ Says ls ss) : ∀ l ∈ ls, ∀ c ∈ l, isWithinLine c = true := by
  induction h with
  | nil => simp
  | cons hl _ ih => exact List.forall_mem_cons.2 ⟨hl.within, ih⟩

end Reader

open Reader Writer

/-- **The document of a text made of lines** is that of what the lines say. -/
theorem parse?_unlines {ls : List (List Char)} {ss : List Statement}
    (h : List.Forall₂ Says ls ss) (hmark : (unlines ls).head? ≠ some '\ufeff') :
    parse? (String.ofList (unlines ls)) = ofStatements? (ss ++ [.blank]) := by
  have hlines : (ls ++ [[]]).mapM statement? = some (ss ++ [.blank]) := by
    rw [List.mapM_append, mapM_of_lines h]
    rfl
  rw [parse?, String.toList_ofList]
  split
  · rename_i heq
    rw [heq] at hmark
    exact absurd rfl hmark
  · rw [lines_unlines (isWithinLine_of_lines h), hlines]
    rfl

/-! ### Plain documents -/

variable {v : Toml} {key : String} {e : String × Toml} {es : Entries} {ds : Draft.Entries}
variable {edit : Draft.Entries → Option Draft.Entries} {ss : List Statement}

/-- What the line of an entry says. -/
def statementOf (e : String × Toml) : Statement := .assignment e.1 [] e.2

/-- **What the lines of a plain document say.** -/
def statementsOf : Entries → List Statement
  | [] => []
  | [(name, .table inner)] => .blank :: .header name [] :: inner.map statementOf
  | e :: es => statementOf e :: statementsOf es

theorem isBareKey_of_areBareKeys (h : areBareKeys (es.map (·.1)) = true) :
    ∀ e ∈ es, isBareKey e.1 = true :=
  fun _ he => List.all_eq_true.1 (Bool.and_eq_true_iff.1 h).1 _ (List.mem_map_of_mem he)

/-- A flat table has keys that need no quotes, and scalars under them. -/
theorem isFlat_iff : isFlat es = true ↔
    areBareKeys (es.map (·.1)) = true ∧ ∀ e ∈ es, e.2.isScalar = true := by
  rw [isFlat, Bool.and_eq_true, List.all_eq_true]

theorem says_entryLines (hk : ∀ e ∈ es, isBareKey e.1 = true)
    (hv : ∀ e ∈ es, e.2.isScalar = true) :
    List.Forall₂ Says (es.map entryLine) (es.map statementOf) := by
  induction es with
  | nil => exact .nil
  | cons e es ih =>
      rw [List.forall_mem_cons] at hk hv
      exact .cons (says_entryLine hk.1 hv.1) (ih hk.2 hv.2)

theorem says_linesOf (hk : ∀ e ∈ es, isBareKey e.1 = true) (h : isFlatToTheLast es = true) :
    List.Forall₂ Says (linesOf es) (statementsOf es) := by
  induction es using linesOf.induct with
  | case1 => exact .nil
  | case2 name inner =>
      rw [isFlatToTheLast] at h
      obtain ⟨hkeys, hscalars⟩ := isFlat_iff.1 h
      have hheader := says_headerLine (hk _ List.mem_cons_self)
      have hinner := says_entryLines (isBareKey_of_areBareKeys hkeys) hscalars
      rw [linesOf, statementsOf]
      exact .cons says_blank (.cons hheader hinner)
  | case3 e es hlast ih =>
      rw [List.forall_mem_cons] at hk
      rw [isFlatToTheLast.eq_3 _ _ hlast, Bool.and_eq_true] at h
      rw [linesOf.eq_3 _ _ hlast, statementsOf.eq_3 _ _ hlast]
      exact .cons (says_entryLine hk.1 h.1) (ih hk.2 h.2)

/-- A text of lines does not start with a byte order mark. -/
theorem head?_unlines_linesOf (hk : ∀ e ∈ es, isBareKey e.1 = true) :
    (unlines (linesOf es)).head? ≠ some '\ufeff' := by
  cases es using linesOf.fun_cases with
  | case1 => simp [linesOf, unlines]
  | case2 name inner => simp [linesOf, unlines]
  | case3 e es hlast =>
      obtain ⟨k, ks, hkey, hbare⟩ := exists_of_isBareKey (hk e List.mem_cons_self)
      rw [linesOf.eq_3 _ _ hlast]
      simp only [unlines, entryLine, hkey, List.flatMap_cons, List.cons_append, List.head?_cons]
      intro hmark
      exact ne_of_kind hbare (show isBare '\ufeff' = false by decide) (Option.some.inj hmark)

/-! ### What they make -/

/-- The entries of a plain document in the making. -/
def draftsOf : Entries → Draft.Entries
  | [] => []
  | [(name, .table inner)] => [(name, .table .header (inner.map fun e => (e.1, .done e.2)))]
  | e :: es => (e.1, .done e.2) :: draftsOf es

namespace Draft

theorem finishAll_done (es : Toml.Entries) :
    finishAll (es.map fun e => (e.1, .done e.2)) = es := by
  induction es with
  | nil => rfl
  | cons e es ih => rw [List.map_cons, finishAll, ih]; rfl

theorem finishAll_draftsOf (es : Toml.Entries) : finishAll (draftsOf es) = es := by
  induction es using draftsOf.induct with
  | case1 => rfl
  | case2 name inner => simp [draftsOf, finishAll, finishEntry, finish, finishAll_done]
  | case3 e es hlast ih => rw [draftsOf.eq_3 _ _ hlast, finishAll, ih]; rfl

theorem lookup_eq_none (h : key ∉ ds.map (·.1)) : lookup ds key = none := by
  rw [lookup, Option.map_eq_none_iff, List.find?_eq_none]
  intro e he heq
  exact h (of_decide_eq_true heq ▸ List.mem_map_of_mem he)

theorem put_of_new (h : key ∉ ds.map (·.1)) (d : Draft) : put key d ds = ds ++ [(key, d)] := by
  induction ds with
  | nil => rfl
  | cons e ds ih =>
      rw [List.map_cons, List.mem_cons, not_or] at h
      rw [put, if_neg (Ne.symm h.1), ih h.2, List.cons_append]

/-- What stands under the last key is replaced. -/
theorem put_last (h : key ∉ ds.map (·.1)) (d d' : Draft) :
    put key d' (ds ++ [(key, d)]) = ds ++ [(key, d')] := by
  induction ds with
  | nil => simp [put]
  | cons e ds ih =>
      rw [List.map_cons, List.mem_cons, not_or] at h
      rw [List.cons_append, put, if_neg (Ne.symm h.1), ih h.2, List.cons_append]

/-- A value under a new key comes last. -/
theorem assign_of_new (h : key ∉ ds.map (·.1)) :
    assign key [] v .header ds = some (ds ++ [(key, .done v)]) := by
  rw [assign, lookup_eq_none h, put_of_new h]
  rfl

theorem openTable_of_new (h : key ∉ ds.map (·.1)) :
    openTable key [] ds = some (ds ++ [(key, .table .header [])]) := by
  rw [openTable, lookup_eq_none h, put_of_new h]

/-- The table that comes last is changed. -/
theorem editAt_last {inner : Draft.Entries} (h : key ∉ ds.map (·.1)) :
    editAt [key] edit (ds ++ [(key, .table .header inner)]) =
      (edit inner).map fun inner => ds ++ [(key, .table .header inner)] := by
  have hfind : lookup (ds ++ [(key, .table .header inner)]) key = some (.table .header inner) := by
    have hnone := lookup_eq_none h
    rw [lookup, Option.map_eq_none_iff] at hnone
    simp [lookup, List.find?_append, hnone]
  simp only [editAt, hfind, put_last h]

end Draft

/-- Entries under new keys come last in the table that comes last. -/
theorem run_statements_last {inner : Draft.Entries} (h : key ∉ ds.map (·.1))
    (hnew : (inner.map (·.1) ++ es.map (·.1)).Nodup) :
    run [key] (ds ++ [(key, .table .header inner)]) (es.map statementOf ++ [.blank]) =
      some (ds ++ [(key, .table .header (inner ++ es.map fun e => (e.1, .done e.2)))]) := by
  induction es generalizing inner with
  | nil => simp [run]
  | cons e es ih =>
      have he : e.1 ∉ inner.map (·.1) := fun hmem =>
        (List.nodup_append.1 hnew).2.2 _ hmem _ List.mem_cons_self rfl
      have hnext : ((inner ++ [(e.1, Draft.done e.2)]).map (·.1) ++ es.map (·.1)).Nodup := by
        simpa using hnew
      have hrest := ih hnext
      rw [List.map_cons, List.cons_append, statementOf, run, Draft.editAt_last h,
        Draft.assign_of_new he]
      simpa using hrest

/-- **What the statements of a plain document make.** -/
theorem run_statementsOf (hnew : (ds.map (·.1) ++ es.map (·.1)).Nodup)
    (h : isFlatToTheLast es = true) :
    run [] ds (statementsOf es ++ [.blank]) = some (ds ++ draftsOf es) := by
  induction es using draftsOf.induct generalizing ds with
  | case1 => simp [statementsOf, run, draftsOf]
  | case2 name inner =>
      have hname : name ∉ ds.map (·.1) := fun hmem =>
        (List.nodup_append.1 hnew).2.2 _ hmem _ List.mem_cons_self rfl
      rw [isFlatToTheLast] at h
      have hkeys : (inner.map (·.1)).Nodup :=
        of_decide_eq_true (Bool.and_eq_true_iff.1 (isFlat_iff.1 h).1).2
      have hnone : (([] : Draft.Entries).map (·.1) ++ inner.map (·.1)).Nodup := hkeys
      have hinner := run_statements_last hname hnone
      simp only [statementsOf, List.cons_append, run, Draft.openTable_of_new hname]
      exact hinner
  | case3 e es hlast ih =>
      have he : e.1 ∉ ds.map (·.1) := fun hmem =>
        (List.nodup_append.1 hnew).2.2 _ hmem _ List.mem_cons_self rfl
      rw [isFlatToTheLast.eq_3 _ _ hlast, Bool.and_eq_true] at h
      have hnext : ((ds ++ [(e.1, Draft.done e.2)]).map (·.1) ++ es.map (·.1)).Nodup := by
        simpa using hnew
      have hrest := ih hnext h.2
      rw [statementsOf.eq_3 _ _ hlast, draftsOf.eq_3 _ _ hlast, List.cons_append, statementOf, run,
        Draft.editAt, Draft.assign_of_new he]
      simpa using hrest

theorem ofStatements?_statementsOf (hnew : (es.map (·.1)).Nodup)
    (h : isFlatToTheLast es = true) :
    ofStatements? (statementsOf es ++ [.blank]) = some es := by
  have hall : (([] : Draft.Entries).map (·.1) ++ es.map (·.1)).Nodup := hnew
  rw [ofStatements?, run_statementsOf hall h, List.nil_append, Option.map_some,
    Draft.finishAll_draftsOf]

/-- **The library that reads and writes line by line is faithful.** -/
theorem faithful_lineByLine : lineByLine.Faithful where
  roundTrip es h := by
    obtain ⟨hkeys, hflat⟩ := Bool.and_eq_true_iff.1 h
    obtain ⟨hbare, hnew⟩ := Bool.and_eq_true_iff.1 hkeys
    have hk := isBareKey_of_areBareKeys hkeys
    have hparse := parse?_unlines (says_linesOf hk hflat) (head?_unlines_linesOf hk)
    rw [ofStatements?_statementsOf (of_decide_eq_true hnew) hflat] at hparse
    simp only [lineByLine]
    exact ⟨String.ofList (unlines (linesOf es)), if_pos h, hparse⟩
  variant _ := rfl

end Toml

end TransactionalTree
