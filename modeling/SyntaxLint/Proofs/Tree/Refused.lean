import SyntaxLint.Proofs.Fixing.Reachable
import SyntaxLint.Proofs.Tree.InPlace

/-!
# Proofs — Trees — refused edits

An edit in place is refused where it names a node that is not alive, or live nodes that are not
related as the edit needs, or would make the source too long for offsets, and for no other reason;
every slot is then as it was.  The place of a leaf among its siblings is looked up when the text of
the leaf has already been replaced: it is found, whatever edits went before.

* `Arena.Reachable`: the arenas there are, after any edits.
* `Arena.Refuses`: why an edit is refused.
* `Arena.atomic_of_reachable`: refused edits of the arenas there are.
-/

namespace SyntaxLint

/-- The arenas there are: those of the trees there are, and what edits, made or refused, leave of
them. -/
inductive Arena.Reachable : Arena → Prop where
  | new {t : Tree} (h : t.Reachable) : Reachable t.arena
  | edit {a : Arena} (h : Reachable a) (e : Edit) : Reachable (a.edit e).arena

/-- The identities that an edit names. -/
def Edit.names : Edit → List NodeId
  | replace id _ => [id]
  | remove parent first last => [parent, first, last]

/-- The slot of a live node. -/
def Arena.Live (a : Arena) (id : NodeId) (s : Slot) : Prop := a.slot? id = some s ∧ s.alive = true

/-- Why an edit is refused. -/
inductive Arena.Refuses (a : Arena) : Edit → TreeError → Prop where
  | dead {e : Edit} {id : NodeId} (named : id ∈ e.names) (dead : ∀ s, ¬ a.Live id s) :
      Refuses a e .unknownNode
  | composite {id : NodeId} {text : String} {s : Slot} (live : a.Live id s)
      (children : s.children ≠ []) :
      Refuses a (.replace id text) (.invalidEdit (.notLeaf s.kind s.span))
  | tooLong {id : NodeId} {text : String} {s : Slot} (live : a.Live id s)
      (leaf : s.children = []) (long : 2 ^ 32 ≤ a.lengthWith s text) :
      Refuses a (.replace id text) (.invalidEdit .tooLong)
  | stranger {parent first last : NodeId} {s x y : Slot} (live : a.Live parent s)
      (liveX : a.Live first x) (liveY : a.Live last y)
      (apart : first ∉ s.children ∨ last ∉ s.children) :
      Refuses a (.remove parent first last) (.invalidEdit (.notChild s.kind s.span))
  | reversed {parent first last : NodeId} {s x y : Slot} {i j : Nat} (live : a.Live parent s)
      (liveX : a.Live first x) (liveY : a.Live last y)
      (hi : s.children.idxOf? first = some i) (hj : s.children.idxOf? last = some j)
      (order : j < i) : Refuses a (.remove parent first last) (.invalidEdit .reversed)

variable {t : Tree} {a : Arena} {id : NodeId} {text : String} {i : Nat}

namespace Arena

/-! ### Reasons -/

/-- A live slot is that of a live node. -/
theorem Holds.exists_of_live (held : a.Holds t) {s : Slot} (live : a.Live id s) :
    ∃ n ∈ t.nodes, n.id = id ∧ s = n.slot := by
  obtain ⟨n, hn, rfl⟩ := Content.exists_mem_preorder (held.dead id s live.1 live.2) 0 none
  exact ⟨n, hn, rfl, Option.some.inj (live.1.symm.trans (held.slots n hn))⟩

theorem live_eq_ok_iff {s : Slot} : a.live id = .ok s ↔ a.Live id s := by
  rw [live, Live, ← Option.filter_eq_some_iff (p := fun s : Slot => s.alive)]
  cases (a.slot? id).filter (·.alive) <;> simp

theorem live_eq_error_iff {fault : TreeError} :
    a.live id = .error fault ↔ fault = .unknownNode ∧ ∀ s, ¬ a.Live id s := by
  simp only [← live_eq_ok_iff]
  rw [live]
  cases (a.slot? id).filter (·.alive) <;> simp [eq_comm]

theorem childIndex_eq_error_iff {s : Slot} (live : a.Live id s) {child : NodeId}
    {fault : TreeError} : a.childIndex id child = .error fault ↔
      child ∉ s.children ∧ fault = .invalidEdit (.notChild s.kind s.span) := by
  rw [childIndex, slot_of_slot? live.1, ← List.idxOf?_eq_none_iff]
  cases s.children.idxOf? child <;> simp [eq_comm]

theorem childIndex_eq_ok_iff {s : Slot} (live : a.Live id s) {child : NodeId} :
    a.childIndex id child = .ok i ↔ s.children.idxOf? child = some i := by
  rw [childIndex, slot_of_slot? live.1]
  cases s.children.idxOf? child <;> simp

theorem Live.unique {s s' : Slot} (h : a.Live id s) (h' : a.Live id s') : s = s' :=
  Option.some.inj (h.1.symm.trans h'.1)

/-- The parent of a live node lists it, also when the text of the node is new. -/
theorem Holds.exists_childIndex (held : a.Holds t) (ht : t.Numbered) {s : Slot} {parent : NodeId}
    (live : a.Live id s) (named : s.parent = some parent) (text : String) :
    ∃ i, (a.rewrite id s text).childIndex parent id = .ok i := by
  obtain ⟨n, hn, rfl, rfl⟩ := held.exists_of_live live
  rcases Tree.eq_top_or_mem_children hn with rfl | ⟨q, hq, child, owner⟩
  · simp [Placed.slot, Tree.top] at named
  · obtain rfl : q.id = parent := Option.some.inj (owner.symm.trans named)
    obtain ⟨before, behind, split⟩ := List.append_of_mem child
    exact ⟨_, held.childIndex_rewrite ht hq split text⟩

theorem refuses_iff_of_dead {e : Edit} {fault : TreeError} (named : id ∈ e.names)
    (dead : ∀ s, ¬ a.Live id s) : a.Refuses e fault ↔ fault = .unknownNode := by
  constructor
  · intro h
    cases h with
    | dead => rfl
    | composite live | tooLong live =>
      exact absurd live (List.mem_singleton.1 named ▸ dead _)
    | stranger live liveX liveY | reversed live liveX liveY =>
      simp only [Edit.names, List.mem_cons, List.not_mem_nil, or_false] at named
      rcases named with rfl | rfl | rfl
      exacts [absurd live (dead _), absurd liveX (dead _), absurd liveY (dead _)]
  · rintro rfl
    exact .dead named dead

theorem refuses_replace_iff {s : Slot} {fault : TreeError} (live : a.Live id s) :
    a.Refuses (.replace id text) fault ↔
      (s.children ≠ [] ∧ fault = .invalidEdit (.notLeaf s.kind s.span)) ∨
      (s.children = [] ∧ 2 ^ 32 ≤ a.lengthWith s text ∧ fault = .invalidEdit .tooLong) := by
  constructor
  · intro h
    cases h with
    | dead named dead => exact absurd live (List.mem_singleton.1 named ▸ dead s)
    | composite live' children =>
      obtain rfl := live.unique live'
      exact .inl ⟨children, rfl⟩
    | tooLong live' leaf long =>
      obtain rfl := live.unique live'
      exact .inr ⟨leaf, long, rfl⟩
  · rintro (⟨children, rfl⟩ | ⟨leaf, long, rfl⟩)
    · exact .composite live children
    · exact .tooLong live leaf long

theorem refuses_remove_iff {parent first last : NodeId} {s u v : Slot} {fault : TreeError}
    (live : a.Live parent s) (liveX : a.Live first u) (liveY : a.Live last v) :
    a.Refuses (.remove parent first last) fault ↔
      ((first ∉ s.children ∨ last ∉ s.children) ∧
        fault = .invalidEdit (.notChild s.kind s.span)) ∨
      ∃ i j, s.children.idxOf? first = some i ∧ s.children.idxOf? last = some j ∧ j < i ∧
        fault = .invalidEdit .reversed := by
  constructor
  · intro h
    cases h with
    | dead named dead =>
      simp only [Edit.names, List.mem_cons, List.not_mem_nil, or_false] at named
      rcases named with rfl | rfl | rfl
      exacts [absurd live (dead _), absurd liveX (dead _), absurd liveY (dead _)]
    | stranger live' _ _ apart =>
      obtain rfl := live.unique live'
      exact .inl ⟨apart, rfl⟩
    | reversed live' _ _ hi hj order =>
      obtain rfl := live.unique live'
      exact .inr ⟨_, _, hi, hj, order, rfl⟩
  · rintro (⟨apart, rfl⟩ | ⟨i, j, hi, hj, order, rfl⟩)
    · exact .stranger live liveX liveY apart
    · exact .reversed live liveX liveY hi hj order

theorem Holds.refuses_replaceText (held : a.Holds t) (ht : t.Numbered) {fault : TreeError} :
    (a.replaceText id text).result = .error fault ↔ a.Refuses (.replace id text) fault := by
  cases alive : a.live id with
  | error e =>
    obtain ⟨rfl, dead⟩ := live_eq_error_iff.1 alive
    rw [refuses_iff_of_dead List.mem_cons_self dead]
    simp [Arena.replaceText, alive, eq_comm]
  | ok s =>
    have live := live_eq_ok_iff.1 alive
    rw [refuses_replace_iff live]
    by_cases leaf : s.children = []
    · rcases Nat.lt_or_ge (a.lengthWith s text) (2 ^ 32) with room | long
      · -- the edit is made: the lookup after the first writes does not fail
        have none : ¬ ((s.children ≠ [] ∧ fault = .invalidEdit (.notLeaf s.kind s.span)) ∨
            (s.children = [] ∧ 2 ^ 32 ≤ a.lengthWith s text ∧ fault = .invalidEdit .tooLong)) := by
          rintro (⟨children, -⟩ | ⟨-, long, -⟩)
          · exact children leaf
          · exact absurd room (Nat.not_lt.2 long)
        refine iff_of_false ?_ none
        cases named : s.parent with
        | none => simp [replaceText_of_root alive leaf room named]
        | some parent =>
          obtain ⟨i, found⟩ := held.exists_childIndex ht live named text
          simp [replaceText_of_child alive leaf room named found]
      · rw [replaceText_of_long alive leaf long]
        constructor
        · rintro ⟨⟩
          exact .inr ⟨leaf, long, rfl⟩
        · rintro (⟨children, -⟩ | ⟨-, -, rfl⟩)
          · exact absurd leaf children
          · rfl
    · rw [replaceText_of_composite alive leaf]
      simp [leaf, eq_comm]

theorem refuses_removeRange {parent first last : NodeId} {fault : TreeError} :
    (a.removeRange parent first last).result = .error fault ↔
      a.Refuses (.remove parent first last) fault := by
  rw [Arena.removeRange]
  cases alive : a.live parent with
  | error e =>
    obtain ⟨rfl, dead⟩ := live_eq_error_iff.1 alive
    rw [refuses_iff_of_dead (by simp [Edit.names]) dead]
    simp [bind, Except.bind, eq_comm]
  | ok s =>
    have live := live_eq_ok_iff.1 alive
    cases aliveX : a.live first with
    | error e =>
      obtain ⟨rfl, dead⟩ := live_eq_error_iff.1 aliveX
      rw [refuses_iff_of_dead (by simp [Edit.names]) dead]
      simp [bind, Except.bind, eq_comm]
    | ok x =>
      have liveX := live_eq_ok_iff.1 aliveX
      cases aliveY : a.live last with
      | error e =>
        obtain ⟨rfl, dead⟩ := live_eq_error_iff.1 aliveY
        rw [refuses_iff_of_dead (by simp [Edit.names]) dead]
        simp [bind, Except.bind, eq_comm]
      | ok y =>
        rw [refuses_remove_iff live liveX (live_eq_ok_iff.1 aliveY)]
        cases placeX : a.childIndex parent first with
        | error e =>
          obtain ⟨apart, rfl⟩ := (childIndex_eq_error_iff live).1 placeX
          simp [bind, Except.bind, List.idxOf?_eq_none_iff.2 apart, apart, eq_comm]
        | ok i =>
          have hi := (childIndex_eq_ok_iff live).1 placeX
          have mem : first ∈ s.children := by
            by_contra apart
            simp [List.idxOf?_eq_none_iff.2 apart] at hi
          cases placeY : a.childIndex parent last with
          | error e =>
            obtain ⟨apart, rfl⟩ := (childIndex_eq_error_iff live).1 placeY
            simp [bind, Except.bind, List.idxOf?_eq_none_iff.2 apart, apart, eq_comm]
          | ok j =>
            have hj := (childIndex_eq_ok_iff live).1 placeY
            have mem' : last ∈ s.children := by
              by_contra apart
              simp [List.idxOf?_eq_none_iff.2 apart] at hj
            simp only [bind, Except.bind, pure, Except.pure]
            by_cases order : j < i <;> simp [order, mem, mem', hi, hj, eq_comm]

/-- **When an edit is refused, and why.** -/
theorem Holds.refuses_edit (held : a.Holds t) (ht : t.Numbered) {e : Edit} {fault : TreeError} :
    (a.edit e).result = .error fault ↔ a.Refuses e fault := by
  cases e with
  | replace id text => exact held.refuses_replaceText ht
  | remove parent first last => exact refuses_removeRange

/-! ### The arenas there are -/

theorem holds_arena (ht : t.Numbered) : t.arena.Holds t := by
  have slots : ∀ id, t.arena.slot? id = if id < t.root.id + 1 then
      some (((t.node? id).map Placed.slot).getD { (default : Slot) with alive := false })
      else none := by
    intro id
    rw [slot?, Tree.arena, Array.getElem?_map, Array.getElem?_range]
    split <;> rfl
  constructor
  case source => rfl
  case slots =>
    intro n hn
    have bound := ht.id_le (Content.id_mem_ids hn)
    rw [slots, if_pos (Nat.lt_succ_of_le bound), ht.node?_id hn]
    rfl
  case dead =>
    intro id s found alive
    rw [slots] at found
    split at found
    · refine Tree.isSome_node?_iff.1 ?_
      cases node : t.node? id with
      | some n => rfl
      | none =>
        rw [node] at found
        obtain rfl := Option.some.inj found
        simp at alive
    · simp at found

/-- Every arena there is holds a tree there is. -/
theorem Reachable.exists_holds (h : a.Reachable) : ∃ t : Tree, t.Reachable ∧ a.Holds t := by
  induction h with
  | new h => exact ⟨_, h, holds_arena h.numbered⟩
  | edit _ e ih =>
    obtain ⟨t, reachable, held⟩ := ih
    exact ⟨_, .edit reachable e, (held.edit reachable.numbered e).holds⟩

/-- **Edits of the arenas there are.**  An edit is refused for the reasons that `Refuses` gives and
for no others, and then every slot and the source are as they were; the lookup that comes after the
first writes of a replacement succeeds; and an edit in place is the edit of the tree. -/
theorem atomic_of_reachable (h : a.Reachable) :
    (∀ e fault, (a.edit e).result = .error fault ↔ a.Refuses e fault) ∧
    (∀ e fault, (a.edit e).result = .error fault → (a.edit e).arena = a) ∧
    (∀ id s parent text, a.Live id s → s.parent = some parent →
      ∃ i, (a.rewrite id s text).childIndex parent id = .ok i) ∧
    ∃ t : Tree, t.Reachable ∧ a.Holds t ∧ ∀ e, (a.edit e).result = (t.tryEdit e).result ∧
      (a.edit e).arena.Holds (t.tryEdit e).tree := by
  obtain ⟨t, reachable, held⟩ := h.exists_holds
  have ht := reachable.numbered
  refine ⟨fun e fault => held.refuses_edit ht, fun e fault => (held.edit ht e).atomic fault,
    fun id s parent text live named => held.exists_childIndex ht live named text, t, reachable,
    held, fun e => ?_⟩
  have mirrors := held.edit ht e
  exact ⟨mirrors.result, mirrors.holds⟩

/-- A tree whose first child is removed: the slots of the child and of the text in it keep their
links, and the text cannot be replaced. -/
theorem atomic_of_removed : ∃ t : Tree,
    Tree.ofEvents 0 [.start .document, .start .element, .token .text "a", .finish,
      .token .text "bc", .finish] = .ok t ∧
    let a := (t.arena.edit (.remove 3 1 1)).arena
    a.Reachable ∧ a = ⟨"bc", #[⟨.text, ⟨0, 1⟩, some 1, [], false⟩,
      ⟨.element, ⟨0, 1⟩, some 3, [0], false⟩, ⟨.text, ⟨0, 2⟩, some 3, [], true⟩,
      ⟨.document, ⟨0, 2⟩, none, [2], true⟩]⟩ ∧
    (a.edit (.replace 0 "x")).result = .error .unknownNode ∧
    (a.edit (.replace 0 "x")).arena = a ∧ a.Refuses (.replace 0 "x") .unknownNode ∧
    ∃ i, (a.rewrite 2 ⟨.text, ⟨0, 2⟩, some 3, [], true⟩ "x").childIndex 3 2 = .ok i := by
  have built : Tree.ofEvents 0 [.start .document, .start .element, .token .text "a", .finish,
      .token .text "bc", .finish] = .ok ⟨0, "", ⟨3, .document, .node "" 1 .element
        (.node "" 0 .text (.tail "a") (.tail "")) (.node "" 2 .text (.tail "bc") (.tail ""))⟩,
        ""⟩ := rfl
  refine ⟨_, built, ?_⟩
  intro a
  have reachable : a.Reachable := .edit (.new (.built built)) (.remove 3 1 1)
  have stored : a = ⟨"bc", #[⟨.text, ⟨0, 1⟩, some 1, [], false⟩,
      ⟨.element, ⟨0, 1⟩, some 3, [0], false⟩, ⟨.text, ⟨0, 2⟩, some 3, [], true⟩,
      ⟨.document, ⟨0, 2⟩, none, [2], true⟩]⟩ := by decide +kernel
  have live : a.Live 2 ⟨.text, ⟨0, 2⟩, some 3, [], true⟩ := by rw [stored]; exact ⟨rfl, rfl⟩
  have refused : (a.edit (.replace 0 "x")).result = .error .unknownNode := by rw [stored]; rfl
  obtain ⟨reasons, atomic, late, -⟩ := atomic_of_reachable reachable
  exact ⟨reachable, stored, refused, atomic _ _ refused, (reasons _ _).1 refused,
    late 2 _ 3 "x" live rfl⟩

end Arena

end SyntaxLint
