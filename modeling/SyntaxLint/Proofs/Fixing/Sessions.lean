import SyntaxLint.Fixing.Guard
import SyntaxLint.Proofs.Fixing.Reachable
import SyntaxLint.Proofs.Tree.Descent
import SyntaxLint.Proofs.Tree.Refused

/-!
# Proofs — Fixing — sessions

A session has a tree and a formatter to itself until it ends.  Edits, made or refused, do not reach
the formatter; the end of the session calls it, once, with the tree that the edits have left and the
range where the target is by then.  A target that is gone has the range that it had when the
session was opened, and one that was not there then has the range of the root; either is cut down to
what is left of the source.  The length of the source is taken in 32 bits there: for a source that
offsets reach the end of it is the length.

* `Session.editAll_made`: the tree that a session leaves is that of the edits that were made.
* `Session.reach`, `Session.Closes`: the range that is formatted.
* `Arena.Holds.session_eq`: a session in place is the session of the tree that it holds.
* `Session.closes_of_reachable`: how every session ends.
-/

namespace SyntaxLint

/-! ### The edits that are made -/

/-- Makes edits one after the other, up to the first that is refused. -/
def Tree.editAll (t : Tree) (es : List Edit) : Except TreeError Tree :=
  es.foldlM (fun t e => (t.edit e).map (·.1)) t

/-- Makes edits in place one after the other. -/
def Arena.editAll (a : Arena) (es : List Edit) : Arena :=
  es.foldl (fun a e => (a.edit e).arena) a

namespace Session

variable {t u : Tree} {target : NodeId}

/-- The edits of a session that are not refused. -/
def made (t : Tree) (es : List Edit) : List Edit :=
  ((es.zip (trace t es)).filter fun e => e.2.result.isOk).map (·.1)

theorem made_cons_of_ok {e : Edit} {s : Span} (done : (t.tryEdit e).result = .ok s)
    (more : List Edit) : made t (e :: more) = e :: made (t.tryEdit e).tree more := by
  simp [made, trace, done, Except.isOk, Except.toBool]

theorem made_cons_of_error {e : Edit} {fault : TreeError}
    (refused : (t.tryEdit e).result = .error fault) (more : List Edit) :
    made t (e :: more) = made (t.tryEdit e).tree more := by
  simp [made, trace, refused, Except.isOk, Except.toBool]

theorem made_sublist (t : Tree) (es : List Edit) : (made t es).Sublist es := by
  induction es generalizing t with
  | nil => exact .slnil
  | cons e more ih =>
    cases done : (t.tryEdit e).result with
    | ok s =>
      rw [made_cons_of_ok done]
      exact (ih _).cons_cons e
    | error fault =>
      rw [made_cons_of_error done]
      exact (ih _).cons e

/-- **The tree that a session leaves is that of the edits that were made.** -/
theorem editAll_made (t : Tree) (es : List Edit) : t.editAll (made t es) = .ok (edited t es) := by
  induction es generalizing t with
  | nil => rfl
  | cons e more ih =>
    have rest := ih (t.tryEdit e).tree
    cases done : t.edit e with
    | ok r =>
      have step : t.tryEdit e = ⟨.ok r.2, r.1⟩ := by rw [Tree.tryEdit, done]
      rw [made_cons_of_ok (congrArg Edited.result step), edited, ← rest, step]
      simp only [Tree.editAll, List.foldlM_cons, done]
      rfl
    | error fault =>
      have step : t.tryEdit e = ⟨.error fault, t⟩ := by rw [Tree.tryEdit, done]
      rw [made_cons_of_error (congrArg Edited.result step), edited, ← rest, step]

/-! ### What every edit keeps -/

theorem numbered_edited (ht : t.Numbered) (es : List Edit) : (edited t es).Numbered := by
  induction es generalizing t with
  | nil => exact ht
  | cons e more ih => exact ih (ht.tryEdit e)

/-- What is left after a session was there when it was opened. -/
theorem descends_edited (ht : t.Numbered) (es : List Edit) : t.Descends (edited t es) := by
  induction es generalizing t with
  | nil => exact .refl t
  | cons e more ih => exact (ht.descends_tryEdit e).trans (ih (ht.tryEdit e))

end Session

/-! ### The range -/

theorem Span.clamp_eq {s : Span} (h : s.start ≤ s.stop) (limit : Nat) :
    s.clamp limit = ⟨min s.start limit, min s.stop limit⟩ := by
  simp only [clamp, mk.injEq, and_true]
  omega

namespace Session

/-- Where a range from before is cut off: at the length of the source, in 32 bits. -/
def reach (after : Tree) : Nat := Span.word after.source.utf8ByteSize

/-- The range that is formatted at the end of a session about a node, which has found a tree and
left another. -/
structure Closes (before after : Tree) (target : NodeId) (range : Span) : Prop where
  ordered : range.start ≤ range.stop
  inside : range.stop ≤ after.source.utf8ByteSize
  /-- the span of the target, if it is alive -/
  live : ∀ n, after.node? target = some n → range = n.span
  /-- what is left of the span that it had, if it has died -/
  gone : ∀ n, before.node? target = some n → after.node? target = none →
    range = ⟨min n.span.start (reach after), min n.span.stop (reach after)⟩
  /-- what is left of the span that the root had, if the target was not alive before -/
  unknown : before.node? target = none → after.node? target = none ∧
    range = ⟨min before.top.span.start (reach after), min before.top.span.stop (reach after)⟩
  /-- the span is cut down to the source, if offsets reach its end -/
  short : after.source.utf8ByteSize < 2 ^ 32 → reach after = after.source.utf8ByteSize

theorem closes_rangeOf (descends : t.Descends u) (target : NodeId) :
    Closes t u target (rangeOf t u target) := by
  have fallback : u.node? target = none → rangeOf t u target =
      ⟨min (spanOf t target).start (reach u), min (spanOf t target).stop (reach u)⟩ := by
    intro dead
    rw [rangeOf, dead]
    exact Span.clamp_eq (Placed.start_le_stop _) _
  constructor
  case ordered =>
    cases alive : u.node? target with
    | some n =>
      rw [rangeOf, alive]
      exact n.start_le_stop
    | none =>
      have ordered : (spanOf t target).start ≤ (spanOf t target).stop := Placed.start_le_stop _
      rw [fallback alive]
      dsimp only
      omega
  case inside =>
    cases alive : u.node? target with
    | some n =>
      rw [rangeOf, alive]
      exact Tree.stop_le (List.mem_of_find?_eq_some alive)
    | none =>
      rw [fallback alive]
      exact (Nat.min_le_right ..).trans (Nat.mod_le ..)
  case live =>
    intro n alive
    rw [rangeOf, alive]
  case gone =>
    intro n found dead
    rw [fallback dead, spanOf, found]
    rfl
  case unknown =>
    intro dead
    have dead' := descends.node?_eq_none dead
    refine ⟨dead', ?_⟩
    rw [fallback dead', spanOf, dead]
    rfl
  case short => exact fun short => Span.word_of_lt short

end Session

/-! ### Sessions in place and sessions -/

namespace Arena

open Session

variable {σ : Type} {t u : Tree} {a b : Arena} {target : NodeId}

/-- The edits of a session in place are those of the session, and the refused ones write nothing. -/
theorem Opened.run_eq {o : Opened σ} (held : o.arena.Holds t) (ht : t.Numbered) (es : List Edit) :
    o.run es = ((trace t es).map (·.result), { o with arena := o.arena.editAll (made t es) }) ∧
      (o.arena.editAll (made t es)).Holds (edited t es) := by
  induction es generalizing o t with
  | nil => exact ⟨rfl, held⟩
  | cons e more ih =>
    have mirrors := held.edit ht e
    obtain ⟨rest, holds⟩ := ih (o := { o with arena := (o.arena.edit e).arena }) mirrors.holds
      (ht.tryEdit e)
    have place : (o.arena.edit e).arena.editAll (made (t.tryEdit e).tree more) =
        o.arena.editAll (made t (e :: more)) := by
      cases done : (t.tryEdit e).result with
      | ok s =>
        rw [made_cons_of_ok done]
        rfl
      | error fault =>
        rw [made_cons_of_error done, mirrors.atomic fault (mirrors.result.trans done)]
    rw [place] at rest holds
    refine ⟨?_, holds⟩
    rw [Opened.run]
    simp only [rest, mirrors.result]
    rfl

theorem Opened.fallback_start (held : a.Holds t) (ht : t.Numbered) (target : NodeId) (s : σ) :
    (start a t.root.id target s).fallback = spanOf t target := by
  have live := held.live_eq ht target
  have root : a.slot t.root.id = t.top.slot := slot_of_slot? (held.slots _ Tree.top_mem_nodes)
  simp only [start, live, Tree.live, spanOf, root]
  cases t.node? target <;> rfl

theorem Opened.range_eq {o : Opened σ} (held : o.arena.Holds u) (hu : u.Numbered)
    (fallback : o.fallback = spanOf t o.target) : o.range = rangeOf t u o.target := by
  have live := held.live_eq hu o.target
  simp only [range, live, Tree.live, rangeOf, fallback, held.source]
  cases u.node? o.target <;> rfl

/-- **A session in place** makes the edits of the session that are not refused, and formats once. -/
theorem Holds.session_eq (held : a.Holds t) (ht : t.Numbered) (target : NodeId) (es : List Edit)
    (format : Formatter σ) (s : σ) :
    a.session format t.root.id target es s = ((trace t es).map (·.result),
      format (a.editAll (made t es)) (rangeOf t (edited t es) target) s) := by
  obtain ⟨ran, holds⟩ := Opened.run_eq (o := .start a t.root.id target s) held ht es
  have range := Opened.range_eq (o := { Opened.start a t.root.id target s with
    arena := a.editAll (made t es) }) holds (numbered_edited ht es)
    (Opened.fallback_start held ht target s)
  rw [session, ran]
  exact congrArg (fun r => (_, format _ r s)) range

end Arena

namespace Session

variable {t : Tree}

/-- **How every session ends.**  The edits are made that are not refused.  The formatter is called
once, with the tree that these edits leave and with one range within the source: where the target
is, or, if it is not alive, what is left of the range that it or the root had before. -/
theorem closes_of_reachable (h : t.Reachable) (target : NodeId) (es : List Edit) :
    (made t es).Sublist es ∧ t.editAll (made t es) = .ok (edited t es) ∧
    ∃ range, Closes t (edited t es) target range ∧
      (∀ format, run format t target es =
        ⟨⟨range, format (edited t es) range⟩, trace t es⟩) ∧
      ∀ a : Arena, a.Holds t → (a.editAll (made t es)).Holds (edited t es) ∧
        ∀ {σ : Type} (format : Arena.Formatter σ) (s : σ) (calls : List (Arena × Span)),
          let b := a.editAll (made t es)
          a.session format.logged t.root.id target es (s, calls) =
            ((trace t es).map (·.result), (format b range s).1, (format b range s).2,
              calls ++ [(b, range)]) := by
  have ht := h.numbered
  refine ⟨made_sublist t es, editAll_made t es, rangeOf t (edited t es) target,
    closes_rangeOf (descends_edited ht es) target, fun format => rfl, fun a held => ⟨?_, ?_⟩⟩
  · exact (Arena.Opened.run_eq (o := .start a t.root.id target ()) held ht es).2
  · intro σ format s calls
    exact held.session_eq ht target es format.logged (s, calls)

/-- A session about an element that is removed, after which an edit is refused and another leaves
less of the source than there was. -/
theorem closes_of_vanished : ∃ t : Tree,
    Tree.ofEvents 0 [.start .document, .token .text "a", .start .element, .token .text "bc",
      .finish, .finish] = .ok t ∧ (t.node? 2).map (·.span) = some ⟨1, 3⟩ ∧
    let es := [.remove 3 2 2, .replace 1 "x", .replace 0 "é"]
    (trace t es).map (·.result) = [.ok ⟨1, 3⟩, .error .unknownNode, .ok ⟨0, 2⟩] ∧
    t.editAll [.remove 3 2 2, .replace 0 "é"] = .ok (edited t es) ∧ (edited t es).source = "é" ∧
    Closes t (edited t es) 2 ⟨1, 2⟩ ∧
    ∀ format : Arena.Formatter Unit, ∃ b : Arena, b.Holds (edited t es) ∧
      (t.arena.session format.logged 3 2 es ((), [])).2.2.2 = [(b, ⟨1, 2⟩)] := by
  have built : Tree.ofEvents 0 [.start .document, .token .text "a", .start .element,
      .token .text "bc", .finish, .finish] = .ok ⟨0, "", ⟨3, .document, .node "" 0 .text
        (.tail "a") (.node "" 2 .element (.node "" 1 .text (.tail "bc") (.tail ""))
        (.tail ""))⟩, ""⟩ := rfl
  refine ⟨_, built, rfl, ?_⟩
  intro es
  have reachable : Tree.Reachable _ := .built built
  obtain ⟨-, edits, range, closes, -, places⟩ := closes_of_reachable reachable 2 es
  obtain rfl : range = ⟨1, 2⟩ := closes.gone _ rfl rfl
  obtain ⟨holds, calls⟩ := places _ (Arena.holds_arena reachable.numbered)
  exact ⟨rfl, edits, rfl, closes, fun format =>
    ⟨_, holds, congrArg (·.2.2.2) (calls format () [])⟩⟩

end Session

end SyntaxLint
