/-
**Paths and their documents.**

The document of a path is read back as the same path, whatever its names are.  Reading takes any
texts for names, though, and neither checks them nor takes them apart.  So a path that was read from
a document may have names that no other way to make a path would give it.  Its text is then not read
back: strict reading refuses it, or gives the path of the names taken apart at their separators.

Main results:

* `Path.ofJson?_eq_some` — which documents are read, and as which paths;
* `Path.ofText_toText` — the text of a path gives its names taken apart;
* `Path.parse_toText_iff` — it is read back exactly if all names are good;
* `Path.document_read_back_unless_misnamed` — **what becomes of a path that was read from a
  document**;
* `Path.not_document_well_formed` — not every one has good names.
-/

import TransactionalTree.Proofs.PathTexts
import TransactionalTree.Value.Tagged

set_option relaxedAutoImplicit false
set_option autoImplicit false

namespace TransactionalTree

namespace Path

variable {p q : Path} {j item : Json} {names : List String} {cs : List Char}

/-! ### Documents -/

theorem mapM_string? {items : List Json} :
    items.mapM Json.string? = some names ↔ items = names.map .string := by
  induction items generalizing names with
  | nil => cases names <;> simp
  | cons i items ih =>
      rw [List.mapM_cons]
      cases i with
      | string s =>
          simp only [Json.string?, Option.bind_eq_bind, Option.bind_some, Option.bind_eq_some_iff,
            ih, Option.pure_def, Option.some.injEq]
          constructor
          · rintro ⟨names, rfl, rfl⟩
            rfl
          · intro h
            cases names with
            | nil => simp at h
            | cons t names =>
                obtain ⟨hs, hrest⟩ := List.cons.inj h
                exact ⟨names, hrest, by rw [Json.string.inj hs]⟩
      | _ => cases names <;> simp [Json.string?]

/-- Only a list of texts holds texts. -/
theorem strings?_eq_some : item.strings? = some names ↔ item = .texts names := by
  cases item with
  | list items => simpa [Json.strings?, Json.texts] using mapM_string?
  | _ => simp [Json.strings?, Json.texts]

/-- **The documents that are read**: objects with a list of texts as their elements, and lists that
hold such a list only.  The texts are the names, as they are. -/
theorem ofJson?_eq_some : ofJson? j = some p ↔
    j = .list [.texts p.names] ∨ j.field? "elements" = some (.texts p.names) := by
  have hmk : ∀ item : Json, item.strings?.map Path.mk = some p ↔ item = .texts p.names := by
    intro item
    rw [← strings?_eq_some, Option.map_eq_some_iff]
    constructor
    · rintro ⟨names, h, rfl⟩
      exact h
    · exact fun h => ⟨p.names, h, rfl⟩
  cases j with
  | list items =>
      cases items with
      | nil => simp [ofJson?, Json.field?]
      | cons i items =>
          cases items with
          | nil => simp [ofJson?, hmk, Json.field?]
          | cons i' items => simp [ofJson?, Json.field?]
  | object fields =>
      simp only [ofJson?, Option.bind_eq_some_iff, hmk, exists_eq_right, reduceCtorEq, false_or]
  | _ => simp [ofJson?, Json.field?]

/-- **The document of a path is read back**, whatever its names are. -/
theorem ofJson?_toJson (p : Path) : ofJson? p.toJson = some p :=
  ofJson?_eq_some.2 (.inr rfl)

/-! ### Texts -/

/-- The pieces of two texts with a separator between them. -/
theorem pieces_append_separator_append (cs ds : List Char) :
    pieces (cs ++ separator :: ds) = pieces cs ++ pieces ds := by
  induction cs with
  | nil => exact pieces_separator ds
  | cons c cs ih =>
      obtain ⟨piece, rest, h⟩ := exists_pieces cs
      rw [List.cons_append]
      by_cases hc : c = separator
      · subst hc
        rw [pieces_separator, pieces_separator, ih, List.cons_append]
      · rw [pieces_cons_of_ne hc h, pieces_cons_of_ne hc (ih.trans (congrArg (· ++ pieces ds) h))]
        rfl

theorem filled_append_separator_append (cs ds : List Char) :
    filled (cs ++ separator :: ds) = filled cs ++ filled ds := by
  rw [filled, pieces_append_separator_append, List.filter_append]
  rfl

/-- Names that are written one after the other come apart as each of them does. -/
theorem filled_append_written (cs : List Char) (names : List String) :
    filled (cs ++ written names) = filled cs ++ names.flatMap fun s => filled s.toList := by
  induction names generalizing cs with
  | nil => simp [written]
  | cons s names ih =>
      have hwritten : written (s :: names) = separator :: (s.toList ++ written names) := rfl
      rw [hwritten, filled_append_separator_append, ih, List.flatMap_cons]

/-- **The text of a path gives its names taken apart** at their separators. -/
theorem ofText_toText (p : Path) : ofText p.toText = ofNames p.names := by
  by_cases h : p.names = []
  · rw [toText, h]
    rfl
  · have hsplit : ∀ s : String, splitNames s = (filled s.toList).map String.ofList := splitNames_eq
    have hfilled := filled_append_written [] p.names
    rw [List.nil_append] at hfilled
    rw [ofText, ofNames, hsplit, toList_toText h, hfilled, List.map_append, List.map_flatMap]
    rfl

/-- **A path is what its text reads as** exactly if all its names are good. -/
theorem parse_toText_iff : parse p.toText = .ok p ↔ p.WellFormed :=
  ⟨fun h => eq_ofText_of_parse h ▸ wellFormed_ofText _, parse_toText⟩

/-! ### Paths that were read from documents -/

/-- **What becomes of a path that was read from a document.**  It has the texts of the document as
its names, and reading its own document gives the same path again.  Reading its text strictly gives
the same path exactly if all the texts can be names; if it gives another one, then it is that of the
texts taken apart. -/
theorem document_read_back_unless_misnamed (h : ofJson? j = some p) :
    (j = .list [.texts p.names] ∨ j.field? "elements" = some (.texts p.names)) ∧
    ofJson? p.toJson = some p ∧
    (parse p.toText = .ok p ↔ ∀ s ∈ p.names, s ≠ "" ∧ separator ∉ s.toList) ∧
    ∀ q, parse p.toText = .ok q → q = ofNames p.names := by
  refine ⟨ofJson?_eq_some.1 h, ofJson?_toJson p, ?_, fun q hq => ?_⟩
  · rw [parse_toText_iff, WellFormed]
    refine forall₂_congr fun s _ => ?_
    rw [GoodName, Ne, String.toList_eq_nil_iff]
  · rw [eq_ofText_of_parse hq, ofText_toText]

/-- A document with a text that contains the separator. -/
def misnamed : Json := .object [("elements", .texts ["a/b"])]

/-- The text of its path is read as another path. -/
theorem misnamed_not_read_back :
    ofJson? misnamed = some ⟨["a/b"]⟩ ∧ parse (toText ⟨["a/b"]⟩) = .ok ⟨["a", "b"]⟩ ∧
      parse (toText ⟨["a/b"]⟩) ≠ .ok ⟨["a/b"]⟩ := by
  have hread : ofJson? misnamed = some ⟨["a/b"]⟩ := by decide
  have hnot := (document_read_back_unless_misnamed hread).2.2.1
  exact ⟨hread, by decide +kernel, fun h => absurd (hnot.1 h) (by decide)⟩

/-- Not every path that is read from a document has good names. -/
theorem not_document_well_formed :
    ¬∀ (j : Json) (p : Path), ofJson? j = some p →
      p.WellFormed ∧ parse p.toText = .ok p ∧ ofJson? p.toJson = some p := by
  intro h
  exact absurd (h misnamed ⟨["a/b"]⟩ (by decide)).1 (by decide)

end Path

end TransactionalTree
