/-
**Settings written and read.**

The text of settings is read back as these settings if they fit together, and refused with the
fault of their check otherwise.  Settings that were read from any text can be written, and are read
back from what is written: numbers beyond the largest that can be written cannot have been read.
All that is asked of the library for documents is that it is faithful.

Main definitions:

* `Config.written` — the document of settings with numbers that can be written.

Main results:

* `Config.isPlain_written` — the document is plain;
* `Config.ofToml?_written` — **the settings are read from the document**;
* `Config.parse_toText` — what is read from the text of settings;
* `Config.writable_of_parse` — settings that were read can be written;
* `Config.written_and_read` — **settings survive being written and read**.
-/

import TransactionalTree.Config.File
import TransactionalTree.Proofs.Documents

set_option relaxedAutoImplicit false
set_option autoImplicit false

namespace TransactionalTree

namespace Config

variable {L : Toml.Library} {c : Config} {n : Nat} {v : Toml}

/-! ### The document of settings -/

/-- The numbers of the settings can be written. -/
def Writable (c : Config) : Prop :=
  c.locking.timeout ≤ largestWritable ∧ c.locking.stripes ≤ largestWritable

/-- The document of settings with numbers that can be written. -/
def written (c : Config) : Toml.Entries :=
  [("isolation_level", .string c.isolation.toText),
    ("write_skew_check", .boolean c.writeSkewCheck),
    ("locking", .table [
      ("lock_acquisition_timeout_ms", .integer (.ofNat c.locking.timeout)),
      ("use_lock_striping", .boolean c.locking.striped),
      ("concurrency_level", .integer (.ofNat c.locking.stripes)),
      ("lock_parent_for_child_insert_remove", .boolean c.locking.lockParent)])]

theorem toToml?_eq (h : c.Writable) : c.toToml? = some c.written := by
  rw [toToml?, writeCount?, if_pos h.1, writeCount?, if_pos h.2]
  rfl

/-- **The document is plain**: no text in it has to be escaped, and the table comes last. -/
theorem isPlain_written (c : Config) : Toml.isPlain c.written = true := by
  have hlevel : c.isolation.toText.toList.all Toml.isVerbatim = true := by
    cases c.isolation <;> decide +kernel
  have hkeys : Toml.areBareKeys ["isolation_level", "write_skew_check", "locking"] = true := by
    decide +kernel
  have hinner : Toml.areBareKeys ["lock_acquisition_timeout_ms", "use_lock_striping",
      "concurrency_level", "lock_parent_for_child_insert_remove"] = true := by
    decide +kernel
  simp only [written, Toml.isPlain, Toml.isFlatToTheLast, Toml.isFlat, Toml.isScalar, List.map_cons,
    List.map_nil, List.all_cons, List.all_nil, hlevel, hkeys, hinner, Bool.and_self]

/-! ### Reading it -/

/-- A number that was written is read. -/
theorem readCount_ofNat (h : n ≤ largestWritable) : readCount (.integer (.ofNat n)) = some n := by
  have hbound : n < 9223372036854775808 := Nat.lt_succ_of_le h
  have hsign : 0 ≤ Int64.ofNat n := by
    rw [Int64.le_iff_toInt_le, Int64.toInt_ofNat_of_lt hbound]
    exact Int.natCast_nonneg n
  rw [readCount, if_pos hsign, Int64.toNatClampNeg_ofNat_of_lt hbound]

/-- A number that was read can be written. -/
theorem readCount_le (h : readCount v = some n) : n ≤ largestWritable := by
  cases v with
  | integer m =>
      rw [readCount] at h
      split at h
      · obtain rfl := Option.some.inj h
        exact Nat.le_of_lt_succ m.toNatClampNeg_lt
      · exact absurd h (by simp)
  | _ => exact absurd h (by simp [readCount])

theorem ofName?_toText (level : IsolationLevel) :
    IsolationLevel.ofName? level.toText = some level := by
  cases level <;> rfl

/-- **The settings are read from their document.** -/
theorem ofToml?_written (hL : L.Faithful) (h : c.Writable) : ofToml? L c.written = some c := by
  have hlevel : readIsolation L (.string c.isolation.toText) = some c.isolation := by
    rw [readIsolation, hL.variant, Option.bind_some, ofName?_toText]
  simp [written, ofToml?, setting, Toml.lookup, hlevel, readFlag, readLocking, readLockingFrom,
    readCount_ofNat h.1, readCount_ofNat h.2]

/-- **What is read from the text of settings**: the settings, if they fit together. -/
theorem parse_toText (hL : L.Faithful) (h : c.Writable) :
    ∃ text, c.toText L = .ok text ∧ parse L text = c.validate := by
  obtain ⟨text, hprint, hparse⟩ := hL.roundTrip c.written (isPlain_written c)
  refine ⟨text, ?_, ?_⟩
  · rw [toText, toToml?_eq h, Option.bind_some, hprint]
  · rw [parse, hparse, Option.bind_some, ofToml?_written hL h]

/-! ### The settings of a text -/

theorem validate_eq_ok {c' : Config} (h : c.validate = .ok c') : c' = c := by
  unfold validate at h
  split at h
  · exact absurd h (by simp)
  · exact (Except.ok.inj h).symm

/-- A number that was read, or its default, can be written if the default can. -/
theorem setting_le {given : Option Toml} {fallback : Nat} (hfallback : fallback ≤ largestWritable)
    (h : setting given fallback readCount = some n) : n ≤ largestWritable := by
  cases given with
  | none =>
      obtain rfl := Option.some.inj h
      exact hfallback
  | some v => exact readCount_le h

theorem readLockingFrom_le {given : String → Nat → Option Toml} {l : LockingConfig}
    (h : readLockingFrom given = some l) :
    l.timeout ≤ largestWritable ∧ l.stripes ≤ largestWritable := by
  obtain ⟨timeout, ht, h⟩ := Option.bind_eq_some_iff.1 h
  obtain ⟨striped, -, h⟩ := Option.bind_eq_some_iff.1 h
  obtain ⟨stripes, hs, h⟩ := Option.bind_eq_some_iff.1 h
  obtain ⟨lockParent, -, h⟩ := Option.bind_eq_some_iff.1 h
  obtain rfl := Option.some.inj h
  exact ⟨setting_le (by decide) ht, setting_le (by decide) hs⟩

theorem readLocking_le {l : LockingConfig} (h : readLocking v = some l) :
    l.timeout ≤ largestWritable ∧ l.stripes ≤ largestWritable := by
  cases v with
  | table entries =>
      have htable : readLockingFrom (fun key _ => Toml.lookup entries key) = some l := h
      exact readLockingFrom_le htable
  | array items =>
      have harray : readLockingFrom (fun _ place => items[place]?) = some l := h
      exact readLockingFrom_le harray
  | _ => exact absurd h (by simp [readLocking])

/-- **Settings that were read can be written**, and fit together. -/
theorem writable_of_parse {text : String} (h : parse L text = .ok c) :
    c.Writable ∧ c.validate = .ok c := by
  unfold parse at h
  split at h
  · exact absurd h (by simp)
  · rename_i c' hread
    obtain rfl := validate_eq_ok h
    obtain ⟨entries, -, htoml⟩ := Option.bind_eq_some_iff.1 hread
    obtain ⟨isolation, -, htoml⟩ := Option.bind_eq_some_iff.1 htoml
    obtain ⟨check, -, htoml⟩ := Option.bind_eq_some_iff.1 htoml
    obtain ⟨locking, hlocking, htoml⟩ := Option.bind_eq_some_iff.1 htoml
    obtain rfl := Option.some.inj htoml
    refine ⟨?_, h⟩
    cases hgiven : Toml.lookup entries "locking" with
    | none =>
        rw [hgiven] at hlocking
        obtain rfl := Option.some.inj hlocking
        show 10000 ≤ largestWritable ∧ 500 ≤ largestWritable
        decide
    | some v =>
        rw [hgiven] at hlocking
        exact readLocking_le hlocking

/-- **Settings survive being written and read**, with every faithful library.  Settings with numbers
that can be written have a text, which is read as these settings if they fit together, and is
refused with the fault of the check otherwise.  Settings that were read from any text have a text,
from which they are read back. -/
theorem written_and_read (hL : L.Faithful) :
    (∀ c : Config, c.locking.timeout ≤ largestWritable → c.locking.stripes ≤ largestWritable →
      ∃ text, c.toText L = .ok text ∧
        (c.validate = .ok c ∧ parse L text = .ok c ∨
          c.validate = .error (.configFault .noStripes) ∧
            parse L text = .error (.configFault .noStripes))) ∧
    ∀ (text : String) (c : Config), parse L text = .ok c →
      ∃ text', c.toText L = .ok text' ∧ parse L text' = .ok c := by
  refine ⟨fun c ht hs => ?_, fun text c h => ?_⟩
  · obtain ⟨text, htext, hparse⟩ := parse_toText hL ⟨ht, hs⟩
    refine ⟨text, htext, ?_⟩
    rw [hparse, and_self, and_self, validate]
    split
    · exact .inr rfl
    · exact .inl rfl
  · obtain ⟨hwritable, hvalid⟩ := writable_of_parse h
    obtain ⟨text', htext, hparse⟩ := parse_toText hL hwritable
    exact ⟨text', htext, hparse.trans hvalid⟩

/-- Settings with 64 locks to share. -/
def sharedLocks : Config :=
  { isolation := .readCommitted, locking := { timeout := 1234, striped := true, stripes := 64 } }

/-- They are read back; without a lock to share they are refused. -/
theorem shared_locks_written_and_read :
    (∃ text, sharedLocks.toText Toml.lineByLine = .ok text ∧
      parse Toml.lineByLine text = .ok sharedLocks) ∧
    ∃ text, toText Toml.lineByLine { locking := { striped := true, stripes := 0 } } = .ok text ∧
      parse Toml.lineByLine text = .error (.configFault .noStripes) := by
  have h := (written_and_read Toml.faithful_lineByLine).1
  constructor
  · obtain ⟨text, htext, hread | hfault⟩ := h sharedLocks (by decide) (by decide)
    · exact ⟨text, htext, hread.2⟩
    · exact absurd hfault.1 (by decide)
  · obtain ⟨text, htext, hread | hfault⟩ :=
      h { locking := { striped := true, stripes := 0 } } (by decide) (by decide)
    · exact absurd hread.1 (by decide)
    · exact ⟨text, htext, hfault.2⟩

end Config

end TransactionalTree
