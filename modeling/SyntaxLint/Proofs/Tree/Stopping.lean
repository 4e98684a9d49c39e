import SyntaxLint.Proofs.Fixing.Reachable
import SyntaxLint.Proofs.Tree.Navigation
import SyntaxLint.Tree.Walk

/-!
# Proofs — Trees — walks that are stopped

A visitor that notes every callback, and stops at none, notes a list that is read off the tree: a
node is entered, told what it is, and left, and what is noted below it stands before it is left.  If
the visitor stops at some of the callbacks, its walk ends with the first of them.  What it has noted
is what the other one notes up to there, and nothing after: the node it stopped at and those above
it are entered and, unless it stopped in leaving that node, not left.

* `Habits.visitor`: the visitors that note every callback.
* `Habits.walk`: what they note, up to where they stop.
* `Moment.Together.pending_iff`: the nodes that are entered and not left.
* `Tree.stopped_of_reachable`: a walk that is stopped and one that is not.
-/

namespace SyntaxLint

/-- The callbacks of a visitor; a production may have one of its own. -/
inductive Callback where
  | enter
  | exit
  | token
  | other
  | production (kind : Kind)
  deriving DecidableEq, Repr

/-- A callback at a node. -/
structure Moment where
  callback : Callback
  node : Placed
  deriving DecidableEq, Repr

/-- What a visitor does beside taking notes: the languages it handles, the productions for which it
has a callback of their own, and the callbacks that skip what is below a node. -/
structure Habits where
  handles : Language → Bool
  own : Kind → Bool
  skips : Moment → Bool

/-- Whether a callback comes while a node is visited: at the node or below it, but not in leaving
it. -/
def Moment.Inside (m : Moment) (p : Placed) : Prop := m.node ∈ p.preorder ∧ m ≠ ⟨.exit, p⟩

/-- A node that is noted to be entered and not to be left. -/
def Pending (log : List Moment) (p : Placed) : Prop := ⟨.enter, p⟩ ∈ log ∧ ⟨.exit, p⟩ ∉ log

/-- What is noted of a node and those below it: nothing, or all of it between its being entered and
its being left. -/
def Moment.Together (p : Placed) (ms : List Moment) : Prop :=
  (∀ m ∈ ms, m.node ∉ p.preorder) ∨
    ∃ before inner after, ms = before ++ ⟨.enter, p⟩ :: (inner ++ ⟨.exit, p⟩ :: after) ∧
      (∀ m ∈ before, m.node ∉ p.preorder) ∧ (∀ m ∈ after, m.node ∉ p.preorder) ∧
      ∀ m ∈ inner, m.node ∈ p.preorder ∧ m ≠ ⟨.enter, p⟩ ∧ m ≠ ⟨.exit, p⟩

namespace Habits

variable (w : Habits) (stops : Moment → Bool)

/-- Whether a walk goes on after a callback that says nothing about what is below. -/
def flow (m : Moment) : Flow := if stops m then .stop else .go

/-- How a walk goes on after a callback at a production. -/
def turn (m : Moment) : Turn := if stops m then .stop else if w.skips m then .skip else .descend

/-- The visitor that notes every callback, and then stops if `stops` says so. -/
def visitor : Visitor (List Moment) where
  handles := w.handles
  enter n log := (log ++ [⟨.enter, n⟩], flow stops ⟨.enter, n⟩)
  exit n log := (log ++ [⟨.exit, n⟩], flow stops ⟨.exit, n⟩)
  token n log := (log ++ [⟨.token, n⟩], flow stops ⟨.token, n⟩)
  other n log := (log ++ [⟨.other, n⟩], w.turn stops ⟨.other, n⟩)
  production kind :=
    if w.own kind then
      some fun n log => (log ++ [⟨.production kind, n⟩], w.turn stops ⟨.production kind, n⟩)
    else none

/-- The callback that tells what a node is. -/
def tells (n : Placed) : Moment :=
  ⟨if n.kind.isToken then .token
    else if w.handles n.kind.language && w.own n.kind then .production n.kind else .other, n⟩

/-- What is noted at a node, given what is noted below it. -/
def around (n : Placed) (below : List Moment) : List Moment :=
  ⟨.enter, n⟩ :: w.tells n ::
    (if n.kind.isToken || w.skips (w.tells n) then [] else below) ++ [⟨.exit, n⟩]

/-- What is noted over a run that begins at `start` below `parent`. -/
def moments (start : Nat) (parent : Option NodeId) : Content → List Moment
  | .tail _ => []
  | .node gap id kind body next =>
    let here : Placed := ⟨⟨id, kind, body⟩, start + gap.utf8ByteSize, parent⟩
    w.around here (moments here.start (some id) body) ++ moments here.span.stop parent next

/-- What is noted over a node and all below it. -/
def noted (n : Placed) : List Moment := w.around n (w.moments n.start (some n.id) n.body)

/-- Notes up to the first at which to stop, behind those there are. -/
def upTo (log : List Moment) : List Moment → List Moment × Flow
  | [] => (log, .go)
  | m :: ms => if stops m then (log ++ [m], .stop) else upTo (log ++ [m]) ms

end Habits

variable {w : Habits} {stops : Moment → Bool} {log ms ms' before after inner : List Moment}
  {m : Moment} {n p : Placed} {c : Content} {start : Nat} {parent : Option NodeId}

namespace Habits

/-! ### Notes up to a stop -/

theorem upTo_singleton : upTo stops log [m] = (log ++ [m], flow stops m) := by
  rw [upTo, flow]
  split <;> rfl

theorem upTo_append : upTo stops log (ms ++ ms') =
    match upTo stops log ms with
    | (log, .stop) => (log, .stop)
    | (log, .go) => upTo stops log ms' := by
  induction ms generalizing log with
  | nil => rfl
  | cons m ms ih =>
    rw [List.cons_append, upTo, upTo]
    split
    · rfl
    · exact ih

/-- Where nothing says stop, all is noted. -/
theorem upTo_of_go (go : ∀ m ∈ ms, stops m = false) : upTo stops log ms = (log ++ ms, .go) := by
  induction ms generalizing log with
  | nil => rw [List.append_nil]; rfl
  | cons m ms ih =>
    rw [upTo, go m List.mem_cons_self, ih fun m hm => go m (List.mem_cons_of_mem _ hm)]
    simp

/-- The first that says stop is the last that is noted. -/
theorem upTo_of_stop (go : ∀ m ∈ before, stops m = false) (stop : stops m = true) :
    upTo stops log (before ++ m :: after) = (log ++ before ++ [m], .stop) := by
  rw [upTo_append, upTo_of_go go]
  simp [upTo, stop]

/-! ### What a walk notes -/

/-- Told of a node, the visitor notes what it is and goes on below it, unless it is a token or there
is nothing to see. -/
theorem dispatch (n : Placed) {below : List Moment → List Moment × Flow} {inner : List Moment}
    (walks : ∀ log, below log = upTo stops log inner) (log : List Moment) :
    (w.visitor stops).dispatch n below log = upTo stops log
      (w.tells n :: if n.kind.isToken || w.skips (w.tells n) then [] else inner) := by
  rw [Visitor.dispatch]
  cases token : n.kind.isToken with
  | true =>
    have tells : w.tells n = ⟨.token, n⟩ := by simp [Habits.tells, token]
    rw [Bool.true_or, if_pos rfl, if_pos rfl, tells, upTo_singleton]
    rfl
  | false =>
    have called : (w.visitor stops).callback n.kind n log =
        (log ++ [w.tells n], w.turn stops (w.tells n)) := by
      rw [Visitor.callback, Habits.tells, token]
      cases handled : w.handles n.kind.language <;> cases own : w.own n.kind <;>
        simp [visitor, handled, own]
    rw [called, turn, upTo, Bool.false_or]
    cases stops (w.tells n) with
    | true => rfl
    | false =>
      cases w.skips (w.tells n) with
      | true => rfl
      | false => exact walks _

/-- At a node the visitor notes what there is to note, up to where it stops. -/
theorem visit (n : Placed) {below : List Moment → List Moment × Flow} {inner : List Moment}
    (walks : ∀ log, below log = upTo stops log inner) (log : List Moment) :
    (w.visitor stops).visit n below log = upTo stops log (w.around n inner) := by
  have entered : (w.visitor stops).enter n log = upTo stops log [⟨.enter, n⟩] :=
    upTo_singleton.symm
  have left : ∀ log, (w.visitor stops).exit n log = upTo stops log [⟨.exit, n⟩] := fun log =>
    upTo_singleton.symm
  have split : w.around n inner = [⟨.enter, n⟩] ++ ((w.tells n ::
      if n.kind.isToken || w.skips (w.tells n) then [] else inner) ++ [⟨.exit, n⟩]) := rfl
  rw [Visitor.visit, entered, split, upTo_append]
  rcases upTo stops log [⟨.enter, n⟩] with ⟨log, _ | _⟩
  · simp only [dispatch n walks, left, upTo_append]
    rcases upTo stops log (w.tells n :: _) with ⟨log, _ | _⟩ <;> rfl
  · rfl

/-- **What a walk over a run notes**, up to where it stops. -/
theorem walk_content (c : Content) (start : Nat) (parent : Option NodeId) (log : List Moment) :
    c.walk (w.visitor stops) start parent log = upTo stops log (w.moments start parent c) := by
  induction c generalizing start parent log with
  | tail s => rfl
  | node gap id kind body next ihb ihn =>
    rw [Content.walk, moments, upTo_append,
      visit ⟨⟨id, kind, body⟩, start + gap.utf8ByteSize, parent⟩ (ihb _ (some id))]
    rcases upTo stops log (w.around _ _) with ⟨log, _ | _⟩
    · exact ihn _ _ _
    · rfl

/-- **What a walk notes**, up to where it stops. -/
theorem walk (n : Placed) (log : List Moment) :
    n.walk (w.visitor stops) log = upTo stops log (w.noted n) :=
  visit n (walk_content n.body n.start (some n.id)) log

/-! ### What is entered and not left -/

/-- Being told of a node is neither entering nor leaving one. -/
theorem callback_tells : (w.tells n).callback ≠ .enter ∧ (w.tells n).callback ≠ .exit := by
  rw [tells]
  split
  · simp
  · split <;> simp

theorem mem_of_mem_around (hm : m ∈ w.around n inner) : m.node = n ∨ m ∈ inner := by
  rw [around, List.cons_append, List.cons_append] at hm
  rcases List.mem_cons.1 hm with rfl | hm
  · exact .inl rfl
  · rcases List.mem_cons.1 hm with rfl | hm
    · exact .inl rfl
    · rcases List.mem_append.1 hm with hm | hm
      · split at hm
        · cases hm
        · exact .inr hm
      · exact .inl (by rw [List.mem_singleton.1 hm])

/-- What is noted over a run is about its nodes. -/
theorem node_mem_of_mem_moments (hm : m ∈ w.moments start parent c) :
    m.node ∈ c.preorder start parent := by
  induction c generalizing start parent with
  | tail s => cases hm
  | node gap id kind body next ihb ihn =>
    rcases List.mem_append.1 hm with hm | hm
    · rcases mem_of_mem_around hm with here | hm
      · exact List.mem_append_left _ (List.mem_cons.2 (.inl here))
      · exact List.mem_append_left _ (List.mem_cons_of_mem _ (ihb hm))
    · exact List.mem_append_right _ (ihn hm)

theorem node_mem_of_mem_noted (hm : m ∈ w.noted n) : m.node ∈ n.preorder :=
  (mem_of_mem_around hm).elim (fun here => here ▸ List.mem_cons_self)
    fun hm => List.mem_cons_of_mem _ (node_mem_of_mem_moments hm)

end Habits

/-- Notes that are cut at one of them and in two: it is in the first part or in the second. -/
theorem Moment.cut_cases {first rest : List Moment} (cut : before ++ m :: after = first ++ rest) :
    (∃ ms, first = before ++ m :: ms) ∨ ∃ ms, before = first ++ ms ∧ ms ++ m :: after = rest := by
  rcases List.append_eq_append_iff.1 cut with ⟨ms, rfl, inside⟩ | ⟨ms, rfl, rfl⟩
  · rcases List.cons_eq_append_iff.1 inside with ⟨rfl, rfl⟩ | ⟨ms, rfl, rfl⟩
    · exact .inr ⟨[], by simp, rfl⟩
    · exact .inl ⟨ms, rfl⟩
  · exact .inr ⟨ms, rfl, rfl⟩

namespace Moment.Together

theorem append_left (h : Together p ms) (out : ∀ m ∈ ms', m.node ∉ p.preorder) :
    Together p (ms' ++ ms) := by
  rcases h with none | ⟨before, inner, after, rfl, first, last, between⟩
  · exact .inl fun m hm => (List.mem_append.1 hm).elim (out m) (none m)
  · exact .inr ⟨ms' ++ before, inner, after, (List.append_assoc _ _ _).symm,
      fun m hm => (List.mem_append.1 hm).elim (out m) (first m), last, between⟩

theorem append_right (h : Together p ms) (out : ∀ m ∈ ms', m.node ∉ p.preorder) :
    Together p (ms ++ ms') := by
  rcases h with none | ⟨before, inner, after, rfl, first, last, between⟩
  · exact .inl fun m hm => (List.mem_append.1 hm).elim (none m) (out m)
  · exact .inr ⟨before, inner, after ++ ms', by simp, first,
      fun m hm => (List.mem_append.1 hm).elim (last m) (out m), between⟩

/-- What is noted at a node is together, if what is noted below it is about the nodes below it. -/
theorem around (out : n ∉ n.descendants) (below : ∀ m ∈ inner, m.node ∈ n.descendants) :
    Together n (w.around n inner) := by
  refine .inr ⟨[], w.tells n :: if n.kind.isToken || w.skips (w.tells n) then [] else inner, [],
    rfl, fun m hm => absurd hm List.not_mem_nil, fun m hm => absurd hm List.not_mem_nil,
    fun m hm => ?_⟩
  rcases List.mem_cons.1 hm with rfl | hm
  · exact ⟨List.mem_cons_self, fun e => Habits.callback_tells.1 (congrArg Moment.callback e),
      fun e => Habits.callback_tells.2 (congrArg Moment.callback e)⟩
  · split at hm
    · cases hm
    · have under := below m hm
      exact ⟨List.mem_cons_of_mem _ under, fun e => out (by rwa [e] at under),
        fun e => out (by rwa [e] at under)⟩

/-- Nothing is noted of what is below a token or is skipped; else all of it is noted below. -/
theorem around_of_mem (out : n ∉ n.descendants) (hp : p ∈ n.descendants)
    (below : Together p inner) : Together p (w.around n inner) := by
  have elsewhere : n ∉ p.preorder := fun up =>
    out ((List.mem_cons.1 up).elim (fun e => e ▸ hp) (Content.mem_preorder_of_mem_descendants hp))
  have here : ∀ callback, ∀ m ∈ [(⟨callback, n⟩ : Moment)], m.node ∉ p.preorder :=
    fun callback m hm => List.mem_singleton.1 hm ▸ elsewhere
  have inside : Together p (if n.kind.isToken || w.skips (w.tells n) then [] else inner) := by
    split
    · exact .inl fun m hm => absurd hm List.not_mem_nil
    · exact below
  exact ((inside.append_left (here _)).append_left (here _)).append_right (here .exit)

/-- **What is noted of a node is together.** -/
theorem moments (hd : c.ids.Nodup) (hp : p ∈ c.preorder start parent) :
    Together p (w.moments start parent c) := by
  induction c generalizing start parent with
  | tail s => cases hp
  | node gap id kind body next ihb ihn =>
    let here : Placed := ⟨⟨id, kind, body⟩, start + gap.utf8ByteSize, parent⟩
    obtain ⟨-, -, hdb, hdn, -⟩ := Content.nodup_node hd
    have all : (here.preorder ++ next.preorder here.span.stop parent).Nodup :=
      .of_map (·.id) (Content.nodup_preorder hd start parent)
    obtain ⟨distinct, -, apart⟩ := List.nodup_append.1 all
    have out : here ∉ here.descendants := (List.nodup_cons.1 distinct).1
    have noted : w.moments start parent (.node gap id kind body next) =
        w.noted here ++ w.moments here.span.stop parent next := rfl
    rw [noted]
    rcases List.mem_append.1 (show p ∈ here.preorder ++ _ from hp) with hp | hp
    · refine append_right ?_ fun m hm up => apart _ (Placed.mem_preorder_trans hp up) _
        (Habits.node_mem_of_mem_moments hm) rfl
      rcases List.mem_cons.1 hp with rfl | hp
      · exact around out fun m hm => Habits.node_mem_of_mem_moments hm
      · exact around_of_mem out hp (ihb hdb hp)
    · exact append_left (ihn hdn hp) fun m hm up =>
        apart _ (Habits.node_mem_of_mem_noted hm) _ (Content.mem_preorder_trans hp up) rfl

/-- What is noted over a node, of one below it or of itself, is together. -/
theorem noted (hd : (n.id :: n.body.ids).Nodup) (hp : p ∈ n.preorder) :
    Together p (w.noted n) := by
  have alone := moments (w := w) (n.ids_alone.symm ▸ hd) (n.preorder_alone.symm ▸ hp)
  have same : w.moments n.start n.parent n.alone = w.noted n := List.append_nil _
  exact same ▸ alone

theorem not_pending (out : ∀ m ∈ log, m.node ∉ p.preorder) : ¬ Pending log p :=
  fun pending => out _ pending.1 List.mem_cons_self

/-- **The nodes that are entered and not left** after a callback are those it comes inside of. -/
theorem pending_iff (h : Together p (before ++ m :: after)) :
    Pending (before ++ [m]) p ↔ m.Inside p := by
  have elsewhere : (∀ e ∈ before ++ [m], e.node ∉ p.preorder) →
      (Pending (before ++ [m]) p ↔ m.Inside p) := fun out =>
    iff_of_false (not_pending out) fun inside => out m (by simp) inside.1
  rcases h with none | ⟨first, inner, last, cut, outside, behind, between⟩
  · exact elsewhere fun e he => none e (by
      rw [List.append_cons]
      exact List.mem_append_left _ he)
  rcases cut_cases cut with ⟨zs, rfl⟩ | ⟨zs, rfl, since⟩
  · exact elsewhere fun e he => outside e (by
      rw [List.append_cons]
      exact List.mem_append_left _ he)
  have notFirst : ⟨.exit, p⟩ ∉ first := fun he => outside _ he List.mem_cons_self
  rcases List.append_eq_cons_iff.1 since with ⟨rfl, here⟩ | ⟨zs, rfl, within⟩
  · -- the node is entered
    obtain ⟨rfl, rfl⟩ := List.cons.inj here
    exact iff_of_true ⟨by simp, by simpa using notFirst⟩ ⟨List.mem_cons_self, by simp⟩
  rcases cut_cases within.symm with ⟨ys, rfl⟩ | ⟨ys, rfl, left⟩
  · -- it is told of, or one below it is visited
    obtain ⟨under, -, notExit⟩ := between m (by simp)
    have notYet : ⟨.exit, p⟩ ∉ zs := fun he => (between _ (List.mem_append_left _ he)).2.2 rfl
    exact iff_of_true ⟨by simp, by simp [notFirst, notYet, Ne.symm notExit]⟩ ⟨under, notExit⟩
  rcases List.append_eq_cons_iff.1 left with ⟨rfl, here⟩ | ⟨ys, rfl, after⟩
  · -- it is left
    obtain ⟨rfl, rfl⟩ := List.cons.inj here
    exact iff_of_false (fun pending => pending.2 (by simp)) fun inside => inside.2 rfl
  · -- it has been left
    exact iff_of_false (fun pending => pending.2 (by simp))
      fun inside => behind m (by simp [after]) inside.1

end Moment.Together

/-! ### Trees -/

/-- A node that is noted to be entered is one that is walked. -/
theorem Habits.mem_preorder_of_pending (noted : w.noted n = before ++ m :: after)
    (pending : Pending (before ++ [m]) p) : p ∈ n.preorder :=
  node_mem_of_mem_noted (m := ⟨.enter, p⟩) (by
    rw [noted, List.append_cons]
    exact List.mem_append_left _ pending.1)

/-- **Walks that are stopped.**  The walk of a node by a visitor that stops at no callback is
completed.  If it notes no callback at which another stops, the walk of that one is completed too
and notes the same; else that walk is stopped, and what it notes is the same up to the first
callback at which to stop.  The nodes it has entered and not left are those that it stopped in. -/
theorem Tree.stopped_of_reachable {t : Tree} {n : Placed} (h : t.Reachable) (hn : n ∈ t.nodes)
    (w : Habits) (stops : Moment → Bool) :
    ∃ log, n.walk (w.visitor fun _ => false) [] = (log, .go) ∧
      ((∀ m ∈ log, stops m = false) → n.walk (w.visitor stops) [] = (log, .go)) ∧
      ∀ before m after, log = before ++ m :: after → (∀ e ∈ before, stops e = false) →
        stops m = true →
        n.walk (w.visitor stops) [] = (before ++ [m], .stop) ∧
          ∀ p, Pending (before ++ [m]) p ↔ p ∈ n.preorder ∧ m.Inside p := by
  have hd := Content.nodup_of_mem h.numbered.nodup hn
  refine ⟨w.noted n, ?_, fun go => ?_, fun before m after noted go stop => ⟨?_, fun p => ?_⟩⟩
  · rw [Habits.walk, Habits.upTo_of_go fun m hm => rfl, List.nil_append]
  · rw [Habits.walk, Habits.upTo_of_go go, List.nil_append]
  · rw [Habits.walk, noted, Habits.upTo_of_stop go stop, List.nil_append]
  · have inside : p ∈ n.preorder → (Pending (before ++ [m]) p ↔ m.Inside p) := fun hp =>
      (noted ▸ Moment.Together.noted hd hp : Moment.Together p _).pending_iff
    constructor
    · intro pending
      have hp := Habits.mem_preorder_of_pending noted pending
      exact ⟨hp, (inside hp).1 pending⟩
    · exact fun ⟨hp, m⟩ => (inside hp).2 m

/-- An element in a document, and a visitor with a callback for elements: it stops at the token in
the element, and leaves neither the token nor the element nor the document. -/
theorem Tree.stopped_of_token : ∃ t : Tree,
    Tree.ofEvents 0 [.start .document, .start .element, .token .text "a", .finish,
      .token .text "b", .finish] = .ok t ∧
    let w : Habits := ⟨fun _ => true, fun kind => kind == .element, fun _ => false⟩
    ∃ before m after, t.top.walk (w.visitor fun _ => false) [] = (before ++ m :: after, .go) ∧
      (t.top.walk (w.visitor fun m => m.callback == .token) [] = (before ++ [m], .stop) ∧
        ∀ p, Pending (before ++ [m]) p ↔ p ∈ t.top.preorder ∧ m.Inside p) ∧
      (before ++ [m]).map (fun e => (e.callback, e.node.id)) = [(.enter, 3), (.other, 3),
        (.enter, 1), (.production .element, 1), (.enter, 0), (.token, 0)] ∧
      after.map (fun e => (e.callback, e.node.id)) = [(.exit, 0), (.exit, 1), (.enter, 2),
        (.token, 2), (.exit, 2), (.exit, 3)] := by
  let t : Tree := ⟨0, "", ⟨3, .document, .node "" 1 .element (.node "" 0 .text (.tail "a")
    (.tail "")) (.node "" 2 .text (.tail "b") (.tail ""))⟩, ""⟩
  have built : Tree.ofEvents 0 [.start .document, .start .element, .token .text "a", .finish,
      .token .text "b", .finish] = .ok t := rfl
  refine ⟨t, built, ?_⟩
  intro w
  obtain ⟨log, full, -, cut⟩ := stopped_of_reachable (.built built) top_mem_nodes w
    fun m => m.callback == .token
  obtain rfl : w.noted t.top = log := (Prod.ext_iff.1 full).1
  let text : Placed := ⟨⟨0, .text, .tail "a"⟩, 0, some 1⟩
  exact ⟨(w.noted t.top).take 5, ⟨.token, text⟩, (w.noted t.top).drop 6, full,
    cut _ _ _ rfl (by decide) rfl, rfl, rfl⟩

end SyntaxLint
