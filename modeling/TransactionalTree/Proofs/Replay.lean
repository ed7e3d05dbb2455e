/-
**Events tell what has changed.**

A listener that follows the events of a commit, one after the other, arrives at the committed tree:
it sets the data of a node that was made or written, forgets a node that was removed with all that
was below it, and ignores moves, which come as nodes that are removed and made.  Many changes of the
tree are not told by an event of their own — what is below a node goes with it — and follow from the
events in their order.  A listener that was added several times hears every event as often, which
changes nothing.

Main definitions:

* `Replica`, `Replica.follow` — **what a listener knows of the tree**, and how an event changes it;
* `heard` — the events that a listener is told;
* `Entry.IsObserved` — what was observed is remembered, so that it can be told that it goes;
* `Turn`, `SharedTree.runTurns` — runs in which listeners come and go;
* `SharedTree.Passage` — what a turn makes of the tree and of the units of work;
* `Store.Completes` — a commit passes its check and merges all its entries.

Main results:

* `follow_mergeAll` — **the events of a merge lead from the tree before to the tree after**;
* `SharedTree.events_replay_tree` — so do the events that a listener is told of a commit, and only
  such commits tell events;
* `SharedTree.replica_follows_tree` — a listener that hears all events knows the tree at any time.
-/

import TransactionalTree.Proofs.Runs

set_option relaxedAutoImplicit false
set_option autoImplicit false

namespace TransactionalTree

/-! ### Following events -/

/-- What a listener knows of the tree: the data of the nodes that are there. -/
abbrev Replica := Path → Option Data

namespace Replica

/-- **What is known after an event.** -/
def follow (m : Replica) : Event → Replica
  | .created p after _ => fun q => if q = p then some after else m q
  | .modified p _ after _ => fun q => if q = p then some after else m q
  | .removed p _ _ => fun q => if q.isAtOrBelow p then none else m q
  | .moved _ _ _ => m

/-- What is known after the listed events. -/
def followAll (m : Replica) (events : List Event) : Replica := events.foldl follow m

variable {m : Replica} {e : Event} {events : List Event}

theorem followAll_append (m : Replica) (events events' : List Event) :
    m.followAll (events ++ events') = (m.followAll events).followAll events' :=
  List.foldl_append

/-- To hear an event again changes nothing. -/
theorem follow_follow (m : Replica) (e : Event) : (m.follow e).follow e = m.follow e := by
  cases e with
  | created p after _ =>
      funext q
      simp only [follow]
      split <;> rfl
  | modified p _ after _ =>
      funext q
      simp only [follow]
      split <;> rfl
  | removed p _ _ =>
      funext q
      simp only [follow]
      split <;> rfl
  | moved _ _ _ => rfl

/-- Whether an event is heard once or several times in a row is of no matter. -/
theorem followAll_replicate (m : Replica) (e : Event) {n : Nat} (hn : 0 < n) :
    m.followAll (List.replicate n e) = m.follow e := by
  induction n generalizing m with
  | zero => simp at hn
  | succ n ih =>
      rw [List.replicate_succ]
      cases n with
      | zero => rfl
      | succ n => exact (ih (m.follow e) (Nat.succ_pos n)).trans (follow_follow m e)

/-- Each event may be heard several times. -/
theorem followAll_flatMap_replicate (m : Replica) (events : List Event) {n : Nat} (hn : 0 < n) :
    m.followAll (events.flatMap (List.replicate n)) = m.followAll events := by
  induction events generalizing m with
  | nil => rfl
  | cons e events ih =>
      rw [List.flatMap_cons, followAll_append, followAll_replicate m e hn]
      exact ih (m.follow e)

/-- Moves change nothing. -/
theorem followAll_moves (m : Replica) (moves : List (Path × Path)) (o : Origin) :
    m.followAll (moves.map fun x => .moved x.1 x.2 o) = m := by
  induction moves with
  | nil => rfl
  | cons x moves ih => exact ih

end Replica

/-! ### One entry -/

variable {t t' : CommittedTree} {v : Version} {o : Origin} {p q : Path} {e e' : Entry}
variable {es : List (Path × Entry)} {events : List Event}

open Replica

theorem follow_mergeRemoval (hm : mergeRemoval t v o p e = .ok (t', events)) (h : t.Sound) :
    followAll t.data? events = t'.data? := by
  simp only [mergeRemoval] at hm
  split at hm
  · split at hm
    · simp at hm
    · rename_i hrem
      obtain ⟨rfl, rfl⟩ := by simpa using hm
      funext q
      simp only [followAll, List.foldl_cons, List.foldl_nil, follow, CommittedTree.data?,
        h.peek?_remove hrem]
      split <;> rfl
    -- there was no node
    · rename_i hrem
      obtain ⟨rfl, rfl⟩ := by simpa using hm
      rw [CommittedTree.remove_eq] at hrem
      split at hrem
      · simp at hrem
      · split at hrem
        · obtain ⟨rfl, -⟩ := by simpa using hrem
          rfl
        · simp at hrem
  · obtain ⟨rfl, rfl⟩ := by simpa using hm
    rfl

/-- A node that is replaced is told to have been removed, which takes along all that was below. -/
theorem follow_mergeReplacement (hm : mergeReplacement t v o p e = .ok (t', events)) (h : t.Sound)
    (hobs : e.observed.isSome = true) : followAll t.data? events = t'.data? := by
  obtain ⟨before, hbefore⟩ := Option.isSome_iff_exists.1 hobs
  simp only [mergeReplacement] at hm
  split at hm
  · simp at hm
  · rename_i hi
    obtain ⟨rfl, rfl⟩ := by simpa using hm
    funext q
    simp only [hbefore, Option.toList_some, List.map_cons, List.map_nil, List.cons_append,
      List.nil_append, followAll, List.foldl_cons, List.foldl_nil, follow, CommittedTree.data?,
      h.peek?_install hi]
    by_cases hq : q = p
    · simp [hq]
    · simp only [if_neg hq, Path.isAtOrBelow_of_ne hq]
      split <;> rfl

theorem follow_mergeCreation (hm : mergeCreation t v o p e = .ok (t', events)) (h : t.Sound) :
    followAll t.data? events = t'.data? := by
  simp only [mergeCreation] at hm
  split at hm
  · rename_i n hn
    split at hm
    · split at hm
      · simp at hm
      · rename_i hu
        obtain ⟨rfl, rfl⟩ := by simpa using hm
        funext q
        simp only [followAll, List.foldl_cons, List.foldl_nil, follow, CommittedTree.data?,
          h.peek?_update hu, hn]
        split <;> rfl
    · obtain ⟨rfl, rfl⟩ := by simpa using hm
      rfl
  · rename_i hnone
    split at hm
    · simp at hm
    · rename_i hi
      obtain ⟨rfl, rfl⟩ := by simpa using hm
      funext q
      simp only [followAll, List.foldl_cons, List.foldl_nil, follow, CommittedTree.data?,
        h.peek?_install hi]
      split
      · rfl
      -- there was nothing at the path, hence nothing below it
      · split
        · rename_i hbelow
          rw [h.peek?_none_of_isAbove hbelow hnone]
        · rfl

theorem follow_mergeUpdate (hm : mergeUpdate t v o p e = .ok (t', events)) (h : t.Sound) :
    followAll t.data? events = t'.data? := by
  simp only [mergeUpdate] at hm
  split at hm
  · simp at hm
  · rename_i hu
    obtain ⟨rfl, rfl⟩ := by simpa using hm
    obtain ⟨n, hn, -⟩ := CommittedTree.update_ok.1 hu
    funext q
    simp only [followAll, List.foldl_cons, List.foldl_nil, follow, CommittedTree.data?,
      h.peek?_update hu, hn]
    split <;> rfl

/-- **The events of one entry lead from the tree before to the tree after.** -/
theorem follow_mergeEntry (h : t.Sound) (hm : mergeEntry t v o p e = .ok (t', events))
    (hobs : e.replacesBase = true → e.observed.isSome = true) :
    followAll t.data? events = t'.data? := by
  simp only [mergeEntry] at hm
  split at hm
  · exact follow_mergeRemoval hm h
  · split at hm
    · split at hm
      · rename_i hrep
        exact follow_mergeReplacement hm h (hobs hrep)
      · exact follow_mergeCreation hm h
    · split at hm
      · exact follow_mergeUpdate hm h
      · obtain ⟨rfl, rfl⟩ := by simpa using hm
        rfl

/-- **The events of a merge lead from the tree before to the tree after.** -/
theorem follow_mergeAll (h : t.Sound)
    (hobs : ∀ a ∈ es, a.2.replacesBase = true → a.2.observed.isSome = true)
    (hm : (mergeAll t v o es).events = .ok events) :
    followAll t.data? events = (mergeAll t v o es).tree.data? := by
  induction es generalizing t events with
  | nil =>
      obtain rfl := Except.ok.inj hm
      rfl
  | cons a es ih =>
      simp only [mergeAll] at hm ⊢
      cases hfirst : mergeEntry t v o a.1 a.2 with
      | error err =>
          rw [hfirst] at hm
          simp at hm
      | ok r =>
          obtain ⟨t₁, first⟩ := r
          rw [hfirst] at hm
          simp only at hm ⊢
          have hstep := follow_mergeEntry h hfirst (hobs a List.mem_cons_self)
          have hsound := (merged_of_mergeEntry h hfirst).sound
          have hrest : ∀ later, (mergeAll t₁ v o es).events = .ok later →
              followAll t₁.data? later = (mergeAll t₁ v o es).tree.data? := fun _ =>
            ih hsound fun a' ha' => hobs a' (List.mem_cons_of_mem _ ha')
          generalize (mergeAll t₁ v o es) = rest at hm hrest
          obtain ⟨tree, rest⟩ := rest
          cases rest with
          | error err => simp [Except.map] at hm
          | ok later =>
              obtain rfl := Except.ok.inj hm
              rw [followAll_append, hstep]
              exact hrest later rfl

/-! ### What a listener hears -/

/-- The change that is told, if it is one. -/
def Notice.event? : Notice → Option Event
  | change e => some e
  | completed _ _ => none

/-- **The events that a listener is told**, in order. -/
def heard (l : String) (sent : List Delivery) : List Event :=
  sent.filterMap fun d => if d.listener = l then d.notice.event? else none

section Heard

variable {l : String}

theorem heard_append (l : String) (sent sent' : List Delivery) :
    heard l (sent ++ sent') = heard l sent ++ heard l sent' :=
  List.filterMap_append

/-- One event is told once for each time the listener was added. -/
theorem heard_one (l : String) (ls : List String) (e : Event) :
    heard l (ls.map fun listener => ⟨listener, .change e⟩) = List.replicate (ls.count l) e := by
  induction ls with
  | nil => rfl
  | cons x ls ih =>
      have hstep : heard l ((x :: ls).map fun listener => (⟨listener, .change e⟩ : Delivery)) =
          (if x = l then [e] else []) ++
            heard l (ls.map fun listener => ⟨listener, .change e⟩) := by
        simp only [heard, List.map_cons, List.filterMap_cons]
        by_cases hx : x = l
        · simp [hx, Notice.event?]
        · simp [hx]
      rw [hstep, ih, List.count_cons]
      by_cases hx : x = l
      · simp [hx, List.replicate_succ]
      · simp [hx]

theorem heard_deliver_changes (l : String) (ls : List String) (events : List Event) :
    heard l (deliver ls (events.map .change)) =
      events.flatMap (List.replicate (ls.count l)) := by
  induction events with
  | nil => rfl
  | cons e events ih =>
      have hstep : deliver ls ((e :: events).map .change) =
          (ls.map fun listener => ⟨listener, .change e⟩) ++ deliver ls (events.map .change) := rfl
      rw [hstep, heard_append, heard_one, ih, List.flatMap_cons]

/-- Of the end of a unit of work only that of its transaction is told, if it is one. -/
theorem mem_deliver_completion {ls : List String} {transaction : Option TransactionId}
    {committed : Bool} {d : Delivery} (hd : d ∈ deliver ls (completion transaction committed)) :
    ∃ id, transaction = some id ∧ d.notice = .completed id committed := by
  obtain ⟨notice, hnotice, hd⟩ := List.mem_flatMap.1 hd
  obtain ⟨l, -, rfl⟩ := List.mem_map.1 hd
  obtain ⟨id, hid, rfl⟩ := List.mem_map.1 hnotice
  exact ⟨id, Option.mem_toList.1 hid, rfl⟩

/-- The end of a transaction is no event. -/
theorem heard_deliver_completion (l : String) (ls : List String)
    (transaction : Option TransactionId) (committed : Bool) :
    heard l (deliver ls (completion transaction committed)) = [] := by
  refine List.filterMap_eq_nil_iff.2 fun d hd => ?_
  obtain ⟨id, -, hnotice⟩ := mem_deliver_completion hd
  simp [hnotice, Notice.event?]

end Heard

/-! ### What was observed -/

/-- **What was observed is remembered**: an entry with a version has the data that were observed. -/
def Entry.IsObserved (e : Entry) : Prop := e.readVersion.isSome = true → e.observed.isSome = true

namespace Workspace

variable {b : Base} {w w' : Workspace} {acts : List Act} {a : Act}

/-- All entries remember what was observed. -/
def Observed (w : Workspace) : Prop := ∀ p e, w.get? p = some e → e.IsObserved

namespace Observed

theorem empty : Workspace.Observed .empty := by
  intro p e he
  simp at he

theorem insert (h : w.Observed) (he : e.IsObserved) : Observed (w.insert p e) := by
  intro q f hf
  rw [SortedMap.get?_insert] at hf
  split at hf
  · obtain rfl := Option.some.inj hf
    exact he
  · exact h q f hf

theorem modify {f : Entry → Entry} (h : w.Observed) (hf : ∀ e, e.IsObserved → (f e).IsObserved) :
    Observed (w.modify p f) := by
  intro q g hg
  rw [SortedMap.get?_modify] at hg
  split at hg
  · obtain ⟨e, he, rfl⟩ := Option.map_eq_some_iff.1 hg
    exact hf e (h q e he)
  · exact h q g hg

theorem note (h : w.Observed) (hs : Note b w w') : w'.Observed := by
  cases hs with
  | copy _ => exact h.insert fun _ => rfl
  | mark _ => exact h.insert fun hv => by simp [Entry.absent] at hv
  | lock p => exact h.modify fun _ he => he

theorem stage (h : w.Observed) (hs : Stage b a w w') : w'.Observed := by
  cases hs with
  | @create _ p name _ =>
      refine h.insert ?_
      cases he : w.get? (p.push name) with
      | none => exact fun hv => by simp [Entry.fresh, Entry.recreate, Entry.absent] at hv
      | some e => exact h _ e he
  | @write _ p e e' hl he =>
      refine h.insert fun hv => ?_
      rw [he.readVersion] at hv
      rw [he.observed]
      exact h p e (View.locate_eq_staged.1 hl).2.1 hv
  | @remove _ p e _ _ =>
      intro q f hf
      obtain ⟨-, g, hg, ⟨-, rfl⟩ | ⟨-, rfl⟩⟩ := Workspace.of_get?_remove hf
      · exact h q g hg
      · exact h q f hg

theorem stages (h : w.Observed) (hs : Stages b w acts w') : w'.Observed := by
  induction hs with
  | refl => exact h
  | note _ hs ih => exact ih.note hs
  | act _ hs ih => exact ih.stage hs

end Observed

end Workspace

/-! ### Commits -/

namespace Store

variable {s : Store} {c : Context} {l : String}

/-- **The merge of a commit completes**: nothing is in the way, and all entries are merged. -/
def Completes (s : Store) (c : Context) : Prop :=
  s.base.conflicts c s.config.writeSkewCheckActive = [] ∧ (s.merge c).events.isOk = true

/-- What is told of a unit of work that has ended: its events, each as often as the listener was
added. -/
theorem heard_conclude (events : List Event) :
    heard l (s.conclude c true (deliver s.listeners (events.map .change))).sent =
      events.flatMap (List.replicate (s.listeners.count l)) := by
  rw [conclude, heard_append, heard_deliver_changes, heard_deliver_completion, List.append_nil]

/-- **The events that a commit tells lead from the tree before to the tree after.** -/
theorem follow_commit (h : s.tree.Sound) (hc : c.workspace.Tidy) (hobs : c.workspace.Observed)
    (hok : s.Completes c) (hl : l ∈ s.listeners) :
    followAll s.tree.data? (heard l (s.commit c).sent) = (s.commit c).store.tree.data? := by
  obtain ⟨hcheck, hmerged⟩ := hok
  have ho := commit_outcome s c
  generalize s.commit c = e at ho
  cases ho with
  | idle _ =>
      have hnone : heard l (s.conclude c true []).sent = [] :=
        heard_deliver_completion l s.listeners c.transaction true
      rw [hnone]
      rfl
  | refused _ hx =>
      rw [hcheck] at hx
      simp at hx
  | torn _ _ hm =>
      rw [hm] at hmerged
      simp [Except.isOk, Except.toBool] at hmerged
  | @merged events _ _ hm =>
      rw [heard_conclude (s := { s with tree := (s.merge c).tree }),
        followAll_flatMap_replicate _ _ (List.count_pos_iff.2 hl), allEvents,
        followAll_append, followAll_moves, ← data?_stamp s c]
      have hsound : (s.stamp c).2.Sound :=
        h.of_slots (stamp_tree s c).1 (stamp_tree s c).2
      rw [merge_eq] at hm
      refine follow_mergeAll hsound (fun a ha hrep => ?_) hm
      have hget := (Workspace.mem_dirty.1 ha).1
      exact hobs a.1 a.2 hget ((hc.consistent hget).replacesBase_iff.1 hrep).1

/-- A commit whose merge does not complete tells no event. -/
theorem heard_commit_of_not (hno : ¬s.Completes c) : heard l (s.commit c).sent = [] := by
  have ho := commit_outcome s c
  generalize s.commit c = e at ho
  cases ho with
  | idle _ => exact heard_deliver_completion l s.listeners c.transaction true
  | refused _ _ => rfl
  | torn _ _ _ => rfl
  | merged _ hx hm =>
      refine absurd ⟨hx, ?_⟩ hno
      rw [hm]
      rfl

/-- A rollback tells no event. -/
theorem heard_rollback (s : Store) (c : Context) : heard l (s.rollback c).sent = [] :=
  heard_deliver_completion l s.listeners c.transaction false

end Store

/-! ### Runs in which listeners come and go -/

/-- A turn of a run with listeners. -/
inductive Turn where
  /-- A step of a run. -/
  | step (step : Step)
  /-- A unit of work begins, whoever has its owner. -/
  | join (name : String) (thread : ThreadId) (transaction : Option TransactionId)
  /-- A listener is added. -/
  | listen (l : String)
  /-- A listener is removed. -/
  | unlisten (l : String)
deriving DecidableEq, Repr, Inhabited

namespace SharedTree

variable {s s₁ : SharedTree} {name other l : String} {c c' c₁ : Context} {turn : Turn}
variable {turns : List Turn}

/-- **Take a turn.** -/
def takeTurn (s : SharedTree) : Turn → SharedTree
  | .step step => s.take step
  | .join name thread transaction => s.start name { thread, transaction }
  | .listen l => { s with store := s.store.addListener l }
  | .unlisten l => { s with store := (s.store.removeListener l).1 }

/-- Take the listed turns, one after the other. -/
def runTurns (s : SharedTree) (turns : List Turn) : SharedTree := turns.foldl takeTurn s

theorem runTurns_append (s : SharedTree) (turns turns' : List Turn) :
    s.runTurns (turns ++ turns') = (s.runTurns turns).runTurns turns' :=
  List.foldl_append

/-- **What a turn makes of the tree and of the units of work.** -/
inductive Passage (s : SharedTree) (turn : Turn) (s₁ : SharedTree) : Prop
  /-- They are as before. -/
  | idle (hcs : s₁.contexts = s.contexts) (ht : s₁.store.tree = s.store.tree)
  /-- The tombstones are gone. -/
  | purged (hcs : s₁.contexts = s.contexts) (ht : s₁.store.tree = s.store.tree.purge.1)
  /-- A unit of work has begun. -/
  | begun {name : String} {thread : ThreadId} {transaction : Option TransactionId}
      (hcs : s₁.contexts = s.contexts.insert name { thread, transaction })
      (ht : s₁.store.tree = s.store.tree)
  /-- A unit of work goes on with other options. -/
  | set {name : String} {c : Context} {options : Options}
      (hturn : turn = .step (.setOptions name options)) (hc : s.context? name = some c)
      (hcs : s₁.contexts = s.contexts.insert name { c with options })
      (ht : s₁.store.tree = s.store.tree)
  /-- A unit of work has carried out an operation. -/
  | performed {name : String} {c : Context} {o : Operation}
      (hturn : turn = .step (.perform name o)) (hc : s.context? name = some c)
      (hcs : s₁.contexts = s.contexts.insert name
        (s.store.base.perform ⟨s.store.locks, c⟩ o).1.context)
      (ht : s₁.store.tree = s.store.tree)
  /-- A unit of work was committed, or should have been. -/
  | committed {name : String} {c : Context} (hturn : turn = .step (.commit name))
      (hc : s.context? name = some c)
      (hcs : s₁.contexts = s.contexts.insert name (s.store.commit c).context)
      (ht : s₁.store.tree = (s.store.commit c).store.tree)
  /-- A unit of work was rolled back. -/
  | rolledBack {name : String} {c : Context} (hc : s.context? name = some c)
      (hcs : s₁.contexts = s.contexts.insert name (s.store.rollback c).context)
      (ht : s₁.store.tree = s.store.tree)

/-- **There is nothing else that a turn makes of them.** -/
theorem passage_takeTurn (s : SharedTree) (turn : Turn) : Passage s turn (s.takeTurn turn) := by
  cases turn with
  | join name thread transaction => exact .begun rfl rfl
  | listen l => exact .idle rfl rfl
  | unlisten l => exact .idle rfl rfl
  | step step =>
      simp only [takeTurn]
      cases step with
      | start name thread transaction =>
          simp only [take]
          split
          · exact .idle rfl rfl
          · exact .begun rfl rfl
      | setOptions name options =>
          simp only [take]
          cases hc : s.context? name with
          | none => exact .idle rfl rfl
          | some c => exact .set rfl hc rfl rfl
      | perform name o =>
          simp only [take]
          cases hc : s.context? name with
          | none => exact .idle rfl rfl
          | some c => exact .performed rfl hc rfl rfl
      | commit name =>
          simp only [take]
          cases hc : s.context? name with
          | none => exact .idle rfl rfl
          | some c => exact .committed rfl hc rfl rfl
      | rollback name =>
          simp only [take]
          cases hc : s.context? name with
          | none => exact .idle rfl rfl
          | some c => exact .rolledBack hc rfl rfl
      | purge => exact .purged rfl rfl

theorem context?_insert {cs : SortedMap String Context} (hcs : s₁.contexts = cs.insert other c₁)
    (name : String) :
    s₁.context? name = if name = other then some c₁ else cs.get? name := by
  rw [context?, hcs, SortedMap.get?_insert]

/-- The tree is sound, all workspaces are tidy, and all entries remember what was observed. -/
structure Attentive (s : SharedTree) : Prop where
  /-- The tree is sound, and all workspaces are tidy. -/
  sane : s.Sane
  /-- All entries remember what was observed. -/
  observed : ∀ {name : String} {c : Context}, s.context? name = some c → c.workspace.Observed

theorem attentive_ofConfig (config : Config) (hash : Path → UInt64) :
    (ofConfig config hash).Attentive where
  sane := sane_ofConfig config hash
  observed h := by simp [context?, ofConfig] at h

/-- A commit leaves the entries or forgets them. -/
theorem observed_commit {s : Store} (h : c.workspace.Observed) :
    (s.commit c).context.workspace.Observed := by
  rcases Store.workspace_commit s c with hw | hw
  · rw [hw]
    exact .empty
  · rw [hw]
    exact h

namespace Attentive

/-- The units of work are as before. -/
theorem of_same (h : s.Attentive) (hcs : s₁.contexts = s.contexts) (hs : s₁.store.tree.Sound) :
    s₁.Attentive := by
  have hsame : ∀ {name : String}, s₁.context? name = s.context? name := by
    intro name
    rw [context?, hcs]
    rfl
  exact ⟨⟨hs, fun hd => h.sane.tidy (hsame.symm.trans hd)⟩,
    fun hd => h.observed (hsame.symm.trans hd)⟩

/-- Only the unit of work of one name has changed. -/
theorem of_insert (h : s.Attentive) (hcs : s₁.contexts = s.contexts.insert name c₁)
    (hs : s₁.store.tree.Sound) (htidy : c₁.workspace.Tidy) (hobs : c₁.workspace.Observed) :
    s₁.Attentive where
  sane := h.sane.set hs htidy hcs
  observed {other d} hd := by
    rw [context?_insert hcs] at hd
    split at hd
    · obtain rfl := Option.some.inj hd
      exact hobs
    · exact h.observed hd

/-- **Every turn keeps the invariant.** -/
theorem takeTurn (h : s.Attentive) (turn : Turn) : (s.takeTurn turn).Attentive := by
  have hsame : (s.takeTurn turn).store.tree = s.store.tree →
      (s.takeTurn turn).store.tree.Sound := fun ht => ht ▸ h.sane.sound
  cases passage_takeTurn s turn with
  | idle hcs ht => exact h.of_same hcs (hsame ht)
  | purged hcs ht => exact h.of_same hcs (ht ▸ h.sane.sound.purge)
  | begun hcs ht => exact h.of_insert hcs (hsame ht) Workspace.tidy_empty .empty
  | @set _ c _ _ hc hcs ht =>
      have htidy : c.workspace.Tidy := h.sane.tidy hc
      have hobs : c.workspace.Observed := h.observed hc
      exact h.of_insert hcs (hsame ht) htidy hobs
  | @performed _ c o _ hc hcs ht =>
      obtain ⟨acts, hst⟩ := Base.staged_perform (b := s.store.base) (w := ⟨s.store.locks, c⟩)
        h.sane.sound (h.sane.tidy hc) o
      have hobs : c.workspace.Observed := h.observed hc
      exact h.of_insert hcs (hsame ht) (hst.tidy h.sane.sound (h.sane.tidy hc))
        (hobs.stages hst.stages)
  | committed _ hc hcs ht =>
      obtain ⟨hs, htidy⟩ := Store.commit_sane h.sane.sound (h.sane.tidy hc)
      exact h.of_insert hcs (ht ▸ hs) htidy (observed_commit (h.observed hc))
  | rolledBack _ hcs ht => exact h.of_insert hcs (hsame ht) Workspace.tidy_empty .empty

theorem runTurns (h : s.Attentive) (turns : List Turn) : (s.runTurns turns).Attentive := by
  induction turns generalizing s with
  | nil => exact h
  | cons turn turns ih => exact ih (h.takeTurn turn)

end Attentive

/-- A turn that is not a commit whose merge completes tells no event. -/
theorem heard_takeTurn (hno : ∀ name c, turn = .step (.commit name) → s.context? name = some c →
    ¬s.store.Completes c) : heard l (s.takeTurn turn).sent = heard l s.sent := by
  cases turn with
  | join name thread transaction => rfl
  | listen l => rfl
  | unlisten l => rfl
  | step step =>
      cases step with
      | start name thread transaction =>
          simp only [SharedTree.takeTurn, SharedTree.take]
          split <;> rfl
      | setOptions name options =>
          simp only [SharedTree.takeTurn, SharedTree.take]
          cases s.context? name <;> rfl
      | perform name o =>
          simp only [SharedTree.takeTurn, SharedTree.take]
          cases s.context? name <;> rfl
      | commit name =>
          simp only [SharedTree.takeTurn, SharedTree.take]
          cases hc : s.context? name with
          | none => rfl
          | some c =>
              simp only [Option.elim_some, commit, finish]
              rw [heard_append, Store.heard_commit_of_not (hno name c rfl hc), List.append_nil]
      | rollback name =>
          simp only [SharedTree.takeTurn, SharedTree.take]
          cases s.context? name with
          | none => rfl
          | some c =>
              simp only [Option.elim_some, rollback, finish]
              rw [heard_append, Store.heard_rollback, List.append_nil]
      | purge => rfl

/-- The events of a commit whose merge completes, as they are added to what was told before. -/
theorem heard_commit (h : s.Attentive) (hc : s.context? name = some c)
    (hok : s.store.Completes c) (hl : l ∈ s.store.listeners) :
    ∃ events, heard l (s.commit name c).1.sent = heard l s.sent ++ events ∧
      followAll s.store.tree.data? events = (s.commit name c).1.store.tree.data? :=
  ⟨_, heard_append _ _ _, Store.follow_commit h.sane.sound (h.sane.tidy hc) (h.observed hc) hok hl⟩

/-- **The events replay the tree.**  Whatever units of work have done, and whichever listeners have
come and gone, when the merge of a commit completes each listener is told events that lead, one
after the other, from the nodes before the commit and their data to those after it.  An operation, a
rollback, a commit that is refused, and any other turn tell no event. -/
theorem events_replay_tree {config : Config} {hash : Path → UInt64}
    (hrun : (ofConfig config hash).runTurns turns = s) :
    (∀ name c l, s.context? name = some c → s.store.Completes c → l ∈ s.store.listeners →
      ∃ events, heard l (s.commit name c).1.sent = heard l s.sent ++ events ∧
        followAll s.store.tree.data? events = (s.commit name c).1.store.tree.data?) ∧
    ∀ turn l, (∀ name c, turn = .step (.commit name) → s.context? name = some c →
        ¬s.store.Completes c) →
      heard l (s.takeTurn turn).sent = heard l s.sent := by
  subst hrun
  have h := (attentive_ofConfig config hash).runTurns turns
  exact ⟨fun name c l hc hok hl => heard_commit h hc hok hl, fun turn l hno => heard_takeTurn hno⟩

/-- Two listeners, one of them added twice.  The first transaction makes `/a/b` and `/u`.  The
second removes `/a`, makes `/a/c`, moves `/u` below it, and looks for `/d`, which the first makes
now; then the second makes it too. -/
def toldTurns : List Turn :=
  let a : Path := ⟨["a"]⟩
  let b : Path := ⟨["a", "b"]⟩
  let c : Path := ⟨["a", "c"]⟩
  let d : Path := ⟨["d"]⟩
  let u : Path := ⟨["u"]⟩
  [.listen "x", .join "s" ⟨"main", 0⟩ (some (1 : Nat)), .join "t" ⟨"main", 0⟩ (some (2 : Nat)),
    .step (.perform "s" (.put b "k" (.int 1))), .step (.perform "s" (.put u "k" (.int 2))),
    .step (.commit "s"), .listen "y", .listen "x",
    .step (.perform "t" (.removeNode a)), .step (.perform "t" (.put c "k" (.int 3))),
    .step (.perform "t" (.moveNode u c true)), .step (.perform "t" (.nodeExists d)),
    .step (.perform "s" (.put d "j" (.int 5))), .step (.commit "s"),
    .step (.perform "t" (.put d "k" (.int 6)))]

/-- The state in which the second transaction is to be committed. -/
def toldState : SharedTree := (ofConfig {}).runTurns toldTurns

/-- The second transaction in that state. -/
def toldContext : Context := (toldState.context? "t").getD default

/-- What the listener that was added twice is told of the commit leads to the tree after it, and to
roll the transaction back tells it nothing. -/
theorem told_twice :
    (∃ events, heard "x" (toldState.commit "t" toldContext).1.sent =
        heard "x" toldState.sent ++ events ∧
      followAll toldState.store.tree.data? events =
        (toldState.commit "t" toldContext).1.store.tree.data?) ∧
    heard "x" (toldState.takeTurn (.step (.rollback "t"))).sent = heard "x" toldState.sent := by
  obtain ⟨hcommit, hother⟩ := events_replay_tree (Eq.refl toldState)
  have hok : toldState.store.Completes toldContext := ⟨by decide +kernel, by decide +kernel⟩
  exact ⟨hcommit "t" toldContext "x" (by decide +kernel) hok (by decide +kernel),
    hother _ "x" fun name c hname => by simp at hname⟩

/-! ### A replica at any time -/

/-- The turn leaves the listener in place, and is not a commit that fails in the middle of its
merge. -/
def tells (s : SharedTree) (l : String) : Turn → Bool
  | .unlisten l' => l' ≠ l
  | .step (.commit name) => (s.context? name).all fun c =>
      !(s.store.base.conflicts c s.store.config.writeSkewCheckActive).isEmpty ||
        (s.store.merge c).events.isOk
  | _ => true

/-- The listener is told of all the listed turns. -/
def tellsThroughout (s : SharedTree) (l : String) : List Turn → Bool
  | [] => true
  | turn :: turns => s.tells l turn && (s.takeTurn turn).tellsThroughout l turns

/-- No step of a unit of work changes who listens. -/
theorem listeners_take (s : SharedTree) (step : Step) :
    (s.take step).store.listeners = s.store.listeners := by
  cases step with
  | start name thread transaction =>
      simp only [take]
      split <;> rfl
  | setOptions name options =>
      simp only [take]
      cases s.context? name <;> rfl
  | perform name o =>
      simp only [take]
      cases s.context? name <;> rfl
  | commit name =>
      simp only [take]
      cases s.context? name with
      | none => rfl
      | some c =>
          have ho := Store.commit_outcome s.store c
          simp only [Option.elim_some, commit, finish]
          generalize s.store.commit c = e at ho
          cases ho <;> rfl
  | rollback name =>
      simp only [take]
      cases s.context? name <;> rfl
  | purge => rfl

/-- A commit that is refused changes nothing. -/
theorem tree_commit_of_not {s : Store} (htells :
    s.base.conflicts c s.config.writeSkewCheckActive ≠ []) : (s.commit c).store.tree = s.tree := by
  have ho := Store.commit_outcome s c
  generalize s.commit c = e at ho
  cases ho with
  | idle _ => rfl
  | refused _ _ => rfl
  | torn _ hx _ => exact absurd hx htells
  | merged _ hx _ => exact absurd hx htells

/-- What a listener knows after a turn is what it hears of it, from what it knew before. -/
theorem replica_takeTurn (h : s.Attentive) (hl : l ∈ s.store.listeners)
    (htells : s.tells l turn = true) :
    l ∈ (s.takeTurn turn).store.listeners ∧
      ∃ events, heard l (s.takeTurn turn).sent = heard l s.sent ++ events ∧
        followAll s.store.tree.data? events = (s.takeTurn turn).store.tree.data? := by
  have hsame : ∀ {s' : SharedTree}, heard l s'.sent = heard l s.sent →
      (∀ p, s'.store.tree.peek? p = s.store.tree.peek? p) →
      ∃ events, heard l s'.sent = heard l s.sent ++ events ∧
        followAll s.store.tree.data? events = s'.store.tree.data? := fun hsent hpeek =>
    ⟨[], by rw [hsent, List.append_nil], funext fun p => by
      rw [CommittedTree.data?, hpeek]
      rfl⟩
  cases turn with
  | join name thread transaction => exact ⟨hl, hsame rfl fun _ => rfl⟩
  | listen l' => exact ⟨List.mem_append_left _ hl, hsame rfl fun _ => rfl⟩
  | unlisten l' =>
      refine ⟨List.mem_filter.2 ⟨hl, ?_⟩, hsame rfl fun _ => rfl⟩
      have hne : l' ≠ l := by simpa [tells] using htells
      simpa using hne.symm
  | step step =>
      refine ⟨(listeners_take s step).symm ▸ hl, ?_⟩
      by_cases hcommit : ∃ name, step = .commit name
      · obtain ⟨name, rfl⟩ := hcommit
        simp only [takeTurn, take, tells] at htells ⊢
        cases hc : s.context? name with
        | none => exact hsame rfl fun _ => rfl
        | some c =>
            simp only [Option.elim_some]
            by_cases hx : s.store.base.conflicts c s.store.config.writeSkewCheckActive = []
            · rw [hc] at htells
              exact heard_commit h hc ⟨hx, by simpa [hx] using htells⟩ hl
            · refine hsame ?_ fun p => congrArg (CommittedTree.peek? · p) (tree_commit_of_not hx)
              simp only [commit, finish]
              rw [heard_append, Store.heard_commit_of_not fun hok => hx hok.1, List.append_nil]
      · have hno : ∀ name, step ≠ .commit name := fun name hstep => hcommit ⟨name, hstep⟩
        exact hsame (heard_takeTurn fun name c hstep => absurd (Turn.step.inj hstep) (hno name))
          (peek?_take h.sane hno)

/-- **A listener knows the tree at any time**, from what it knew at first and the events that it has
heard since, unless a commit has failed in the middle of its merge. -/
theorem replica_follows_tree (h : s.Attentive) (hl : l ∈ s.store.listeners)
    (htells : s.tellsThroughout l turns = true) :
    ∃ events, heard l (s.runTurns turns).sent = heard l s.sent ++ events ∧
      followAll s.store.tree.data? events = (s.runTurns turns).store.tree.data? := by
  induction turns generalizing s with
  | nil => exact ⟨[], (List.append_nil _).symm, rfl⟩
  | cons turn turns ih =>
      rw [tellsThroughout, Bool.and_eq_true] at htells
      obtain ⟨hl', first, hfirst, hknown⟩ := replica_takeTurn h hl htells.1
      obtain ⟨later, hlater, hknown'⟩ := ih (h.takeTurn turn) hl' htells.2
      refine ⟨first ++ later, ?_, ?_⟩
      · rw [← List.append_assoc, ← hfirst]
        exact hlater
      · rw [followAll_append, hknown]
        exact hknown'

end SharedTree

end TransactionalTree
