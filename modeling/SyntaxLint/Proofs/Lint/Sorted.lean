import Mathlib.Data.Prod.Lex
import SyntaxLint.Proofs.Lint.Reports
import SyntaxLint.Proofs.Text.Utf8

/-!
# Proofs — Linting — diagnostics in order

Diagnostics are shown in the order of their spans, and those of one span in the order of the ids of
the inspections that made them.  Only diagnostics of one inspection can share a place in this order,
and they keep the order in which they were reported.  So it makes no difference in which order the
inspections ran.

* `Diagnostic.Precedes`, `Diagnostic.Sorts`: diagnostics in order.
* `Diagnostic.eq_of_ordered`: lists in order are told apart by what stands at one place.
* `Visitor.Adds`, `Visitor.Adds.walk`: visitors that do nothing but report.
* `Diagnostic.sort_eq_of_interleaves`: the sort, and the inspectors it makes equal.
-/

namespace SyntaxLint

open Text

/-! ### The order of diagnostics -/

namespace Diagnostic

/-- What the order of diagnostics depends on: both ends of the span, and the inspection. -/
def place (d : Diagnostic) : Nat ×ₗ Nat ×ₗ String :=
  toLex (d.span.start, toLex (d.span.stop, d.inspection))

/-- `a` may stand before `b`: its span starts earlier or, if at the same offset, ends earlier or, if
at the same offset, its inspection has the lesser id by bytes, or the same. -/
def Precedes (a b : Diagnostic) : Prop :=
  a.span.start < b.span.start ∨ a.span.start = b.span.start ∧
    (a.span.stop < b.span.stop ∨ a.span.stop = b.span.stop ∧
      utf8 a.inspection ≤ utf8 b.inspection)

instance decidablePrecedes (a b : Diagnostic) : Decidable (a.Precedes b) :=
  inferInstanceAs (Decidable (_ < _ ∨ _ = _ ∧ (_ < _ ∨ _ = _ ∧ _ ≤ _)))

/-- The diagnostics `ds` in order: none is lost or made, and those of one place keep the order they
were in. -/
structure Sorts (ds es : List Diagnostic) : Prop where
  perm : es.Perm ds
  ordered : es.Pairwise Precedes
  stable : ∀ p, es.filter (·.place = p) = ds.filter (·.place = p)

/-- The same diagnostics, with those of one inspection in the same order. -/
structure Interleaves (ds es : List Diagnostic) : Prop where
  perm : ds.Perm es
  each : ∀ id, ds.filter (·.inspection = id) = es.filter (·.inspection = id)

variable {a b : Diagnostic} {ds es : List Diagnostic}

theorem precedes_iff : a.Precedes b ↔ a.place ≤ b.place := by
  rw [Precedes, utf8_le_iff, place, place, Prod.Lex.toLex_le_toLex, Prod.Lex.toLex_le_toLex]

theorem compare_iff : (compare a b != .gt) = true ↔ a.place ≤ b.place := by
  rw [compare, Span.compare, bne_iff_ne, ne_eq, ← Ordering.isLE_iff_ne_gt, ← precedes_iff,
    Precedes, utf8_le_iff, Ordering.then_assoc, Ordering.isLE_then_iff_or,
    Ordering.isLE_then_iff_or, compare_lt_iff_lt, compare_lt_iff_lt, compare_eq_iff_eq,
    compare_eq_iff_eq, Std.LawfulBCmp.isLE_iff_le]

theorem compare_trans (a b c : Diagnostic) (hab : (compare a b != .gt) = true)
    (hbc : (compare b c != .gt) = true) : (compare a c != .gt) = true :=
  compare_iff.2 ((compare_iff.1 hab).trans (compare_iff.1 hbc))

theorem compare_total (a b : Diagnostic) : (compare a b != .gt || compare b a != .gt) = true := by
  rw [Bool.or_eq_true, compare_iff, compare_iff]
  exact le_total _ _

/-- Lists in order are the same if they have the same diagnostics in the same order at every
place. -/
theorem eq_of_ordered (hd : ds.Pairwise fun a b => a.place ≤ b.place)
    (he : es.Pairwise fun a b => a.place ≤ b.place)
    (same : ∀ p, ds.filter (·.place = p) = es.filter (·.place = p)) : ds = es := by
  have mem : ∀ d, d ∈ ds ↔ d ∈ es := fun d => by
    simpa using congrArg (d ∈ ·) (same d.place)
  induction ds generalizing es with
  | nil =>
    cases es with
    | nil => rfl
    | cons e es => simpa using (mem e).2 List.mem_cons_self
  | cons d ds ih =>
    cases es with
    | nil => simpa using (mem d).1 List.mem_cons_self
    | cons e es =>
      rw [List.pairwise_cons] at hd he
      -- both are least, so they stand at the first place
      have places : d.place = e.place := by
        refine le_antisymm ?_ ?_
        · rcases List.mem_cons.1 ((mem e).2 List.mem_cons_self) with rfl | inner
          · exact le_refl _
          · exact hd.1 e inner
        · rcases List.mem_cons.1 ((mem d).1 List.mem_cons_self) with rfl | inner
          · exact le_refl _
          · exact he.1 d inner
      have first := same e.place
      rw [List.filter_cons_of_pos (by simpa using places), List.filter_cons_of_pos (by simp),
        List.cons.injEq] at first
      obtain ⟨rfl, rest⟩ := first
      have same : ∀ p, ds.filter (·.place = p) = es.filter (·.place = p) := fun p => by
        by_cases h : d.place = p
        · rw [← h, rest]
        · simpa [List.filter_cons, h] using same p
      rw [ih hd.2 he.2 same fun x => by simpa using congrArg (x ∈ ·) (same x.place)]

theorem sort_perm (ds : List Diagnostic) : (sort ds).Perm ds := List.mergeSort_perm _ _

theorem pairwise_sort (ds : List Diagnostic) :
    (sort ds).Pairwise fun a b => a.place ≤ b.place :=
  (List.pairwise_mergeSort compare_trans compare_total ds).imp compare_iff.1

/-- Diagnostics of one place stay in the order they are in. -/
theorem filter_sort (ds : List Diagnostic) (p : Nat ×ₗ Nat ×ₗ String) :
    (sort ds).filter (·.place = p) = ds.filter (·.place = p) := by
  have tied : (ds.filter (·.place = p)).Pairwise fun a b => compare a b != .gt := by
    refine List.pairwise_iff_forall_sublist.2 fun {a b} h => ?_
    have ha := h.subset List.mem_cons_self
    have hb := h.subset (List.mem_cons_of_mem _ List.mem_cons_self)
    rw [List.mem_filter, decide_eq_true_eq] at ha hb
    exact compare_iff.2 (ha.2.trans hb.2.symm).le
  have kept : (ds.filter (·.place = p)).Sublist (sort ds) :=
    List.sublist_mergeSort compare_trans compare_total tied List.filter_sublist
  have kept := kept.filter (·.place = p)
  rw [List.filter_filter] at kept
  simp only [Bool.and_self] at kept
  exact (kept.eq_of_length ((sort_perm ds).filter _).length_eq.symm).symm

theorem sorts_sort (ds : List Diagnostic) : Sorts ds (sort ds) where
  perm := sort_perm ds
  ordered := (pairwise_sort ds).imp precedes_iff.2
  stable := filter_sort ds

/-- What stands at one place was made by one inspection. -/
theorem Interleaves.filter_place (h : Interleaves ds es) (p : Nat ×ₗ Nat ×ₗ String) :
    ds.filter (·.place = p) = es.filter (·.place = p) := by
  have made : ∀ xs : List Diagnostic, xs.filter (·.place = p) =
      (xs.filter (·.inspection = (ofLex (ofLex p).2).2)).filter (·.place = p) := fun xs => by
    rw [List.filter_filter]
    refine List.filter_congr fun d _ => ?_
    by_cases here : d.place = p
    · simp [← here, place]
    · simp [here]
  rw [made ds, h.each, ← made]

theorem Interleaves.sort_eq (h : Interleaves ds es) : sort ds = sort es :=
  eq_of_ordered (pairwise_sort ds) (pairwise_sort es) fun p => by
    rw [filter_sort, filter_sort, h.filter_place]

end Diagnostic

/-! ### What inspections add -/

/-- The findings of both, in order. -/
instance Findings.instAppend : Append Findings where
  append f g := ⟨f.diagnostics ++ g.diagnostics, f.skipped ++ g.skipped,
    f.reported + g.reported, f.malformed + g.malformed⟩

namespace Findings

variable {f g : Findings} {τ : Type} {id : String}

theorem append_eq (f g : Findings) :
    f ++ g = ⟨f.diagnostics ++ g.diagnostics, f.skipped ++ g.skipped,
      f.reported + g.reported, f.malformed + g.malformed⟩ := rfl

@[simp] theorem diagnostics_append (f g : Findings) :
    (f ++ g).diagnostics = f.diagnostics ++ g.diagnostics := rfl

@[simp] theorem append_none (f : Findings) : f ++ none = f := by simp [append_eq, none]

@[simp] theorem none_append (f : Findings) : none ++ f = f := by simp [append_eq, none]

theorem append_assoc (f g h : Findings) : f ++ g ++ h = f ++ (g ++ h) := by
  simp [append_eq, Nat.add_assoc]

theorem register_none_append (f : Findings) (d : Diagnostic) :
    f ++ none.register d = f.register d := by
  simp [append_eq, none, register]

theorem skip_none_append (f : Findings) (s : Skipped) : f ++ none.skip s = f.skip s := by
  simp [append_eq, none, skip]

/-- All diagnostics were made by the inspection `id`. -/
def MadeBy (f : Findings) (id : String) : Prop := ∀ d ∈ f.diagnostics, d.inspection = id

theorem madeBy_none : none.MadeBy id := fun _ hd => absurd hd List.not_mem_nil

theorem MadeBy.append (hf : f.MadeBy id) (hg : g.MadeBy id) : (f ++ g).MadeBy id :=
  fun d hd => (List.mem_append.1 hd).elim (hf d) (hg d)

/-- A step adds findings to those there are, which it does not look at; the diagnostics among them
are made by the inspection `id`. -/
def Adds (id : String) (step : Findings → Findings × τ) : Prop :=
  ∃ g x, g.MadeBy id ∧ ∀ f, step f = (f ++ g, x)

theorem adds_nothing (id : String) (x : τ) : Adds id fun f => (f, x) :=
  ⟨none, x, madeBy_none, fun f => by rw [append_none]⟩

end Findings

namespace Visitor

/-- A visitor that does nothing but report for the inspection `id`. -/
structure Adds (v : Visitor Findings) (id : String) : Prop where
  enter : ∀ n, Findings.Adds id (v.enter n)
  exit : ∀ n, Findings.Adds id (v.exit n)
  token : ∀ n, Findings.Adds id (v.token n)
  callback : ∀ n, Findings.Adds id (v.callback n.kind n)

namespace Adds

variable {v : Visitor Findings} {id : String}

theorem dispatch (h : v.Adds id) (n : Placed) {below : Findings → Findings × Flow}
    (hb : Findings.Adds id below) : Findings.Adds id (v.dispatch n below) := by
  by_cases token : n.kind.isToken = true
  · obtain ⟨g, flow, made, adds⟩ := h.token n
    exact ⟨g, flow, made, fun f => by rw [Visitor.dispatch, if_pos token, adds]⟩
  · obtain ⟨g, turn, made, adds⟩ := h.callback n
    cases turn with
    | descend =>
      obtain ⟨g', flow, made', adds'⟩ := hb
      refine ⟨g ++ g', flow, made.append made', fun f => ?_⟩
      rw [Visitor.dispatch, if_neg token, adds, ← Findings.append_assoc]
      exact adds' (f ++ g)
    | skip => exact ⟨g, .go, made, fun f => by rw [Visitor.dispatch, if_neg token, adds]⟩
    | stop => exact ⟨g, .stop, made, fun f => by rw [Visitor.dispatch, if_neg token, adds]⟩

theorem visit (h : v.Adds id) (n : Placed) {below : Findings → Findings × Flow}
    (hb : Findings.Adds id below) : Findings.Adds id (v.visit n below) := by
  obtain ⟨g₁, entered, made₁, adds₁⟩ := h.enter n
  obtain ⟨g₂, told, made₂, adds₂⟩ := h.dispatch n hb
  obtain ⟨g₃, left, made₃, adds₃⟩ := h.exit n
  cases entered with
  | stop => exact ⟨g₁, .stop, made₁, fun f => by simp only [Visitor.visit, adds₁]⟩
  | go =>
    cases told with
    | stop =>
      exact ⟨g₁ ++ g₂, .stop, made₁.append made₂, fun f => by
        simp only [Visitor.visit, adds₁, adds₂, Findings.append_assoc]⟩
    | go =>
      exact ⟨g₁ ++ (g₂ ++ g₃), left, made₁.append (made₂.append made₃), fun f => by
        simp only [Visitor.visit, adds₁, adds₂, adds₃, Findings.append_assoc]⟩

theorem walk_content (h : v.Adds id) (c : Content) (start : Nat) (parent : Option NodeId) :
    Findings.Adds id (c.walk v start parent) := by
  induction c generalizing start parent with
  | tail t => exact Findings.adds_nothing id _
  | node gap i kind body next ihb ihn =>
    let here : Placed := ⟨⟨i, kind, body⟩, start + gap.utf8ByteSize, parent⟩
    obtain ⟨g₁, visited, made₁, adds₁⟩ := h.visit here (ihb here.start (some i))
    obtain ⟨g₂, rest, made₂, adds₂⟩ := ihn here.span.stop parent
    cases visited with
    | stop => exact ⟨g₁, .stop, made₁, fun f => by simp only [Content.walk, here, adds₁]⟩
    | go =>
      exact ⟨g₁ ++ g₂, rest, made₁.append made₂, fun f => by
        simp only [Content.walk, here, adds₁, adds₂, Findings.append_assoc]⟩

/-- **The walk of a visitor that only reports** adds the same whatever was found before. -/
theorem walk (h : v.Adds id) (n : Placed) : Findings.Adds id (n.walk v) :=
  h.visit n (h.walk_content n.body n.start (some n.id))

end Adds

/-- A visitor that checks the nodes of one kind does nothing but report. -/
theorem Checks.adds {v : Visitor Findings} {r : Reporter} {target : Kind} {β : Type}
    {finding : View target → Except MissingChild (Option β)} {shown : β → Diagnostic}
    (h : v.Checks r finding shown) (made : ∀ x, (shown x).inspection = r.inspection) :
    v.Adds r.inspection where
  enter n := funext (h.enter n) ▸ Findings.adds_nothing _ _
  exit n := funext (h.exit n) ▸ Findings.adds_nothing _ _
  token n := funext (h.token n) ▸ Findings.adds_nothing _ _
  callback n := by
    by_cases kind : n.kind = target
    · rw [funext (h.callback_of_eq kind)]
      rcases finding ⟨n, kind⟩ with cause | _ | x
      · exact ⟨Findings.none.skip ⟨r.inspection, n.kind, n.span, cause⟩, .skip,
          fun _ hd => absurd hd List.not_mem_nil,
          fun f => congrArg (·, _) (Findings.skip_none_append f _).symm⟩
      · exact Findings.adds_nothing _ _
      · refine ⟨Findings.none.register (shown x), .skip, fun d hd => ?_, fun f => ?_⟩
        · rw [List.mem_singleton.1 hd, made]
        · exact congrArg (·, _) (Findings.register_none_append f _).symm
    · rw [funext (h.callback_of_ne kind)]
      exact Findings.adds_nothing _ _

end Visitor

/-! ### Inspectors -/

/-- Whatever it runs on, an inspection does nothing but report. -/
def Inspection.Adds (i : Inspection) : Prop :=
  ∀ t severity, (i.visitor ⟨t, i.id, severity⟩).Adds i.id

theorem Inspection.adds_of_mem_builtin {i : Inspection} (h : i ∈ builtin) : i.Adds := by
  rw [builtin, List.mem_cons, List.mem_singleton] at h
  intro t severity
  rcases h with rfl | rfl
  · exact (AnimationTrigger.checks_visitor ⟨t, _, severity⟩).adds fun _ => rfl
  · exact (EmptyEnum.checks_visitor ⟨t, _, severity⟩).adds fun _ => rfl

namespace Inspector

variable {i j : Inspector} {t : Tree} {n : Placed} {rs qs : List Registered}

/-- What a registered inspection reports below a node. -/
def reported (t : Tree) (n : Placed) (r : Registered) : List Diagnostic :=
  (Registered.inspect t n .none r).diagnostics

theorem foldl_inspect (adds : ∀ r ∈ rs, r.inspection.Adds) (f : Findings) :
    (rs.foldl (Registered.inspect t n) f).diagnostics =
      f.diagnostics ++ rs.flatMap (reported t n) := by
  induction rs generalizing f with
  | nil => simp
  | cons r rs ih =>
    obtain ⟨g, flow, -, walks⟩ := (adds r List.mem_cons_self t r.severity).walk n
    have here : ∀ f, Registered.inspect t n f r = f ++ g := fun f => by
      rw [Registered.inspect, walks]
    rw [List.foldl_cons, ih fun q hq => adds q (List.mem_cons_of_mem _ hq), here,
      List.flatMap_cons, reported, here, Findings.none_append, Findings.diagnostics_append,
      List.append_assoc]

/-- What is reported for an inspection is what those registered under its id report. -/
theorem filter_reported (adds : ∀ r ∈ rs, r.inspection.Adds) (id : String) :
    (rs.flatMap (reported t n)).filter (·.inspection = id) =
      (rs.filter (·.inspection.id = id)).flatMap (reported t n) := by
  induction rs with
  | nil => rfl
  | cons r rs ih =>
    obtain ⟨g, flow, made, walks⟩ := (adds r List.mem_cons_self t r.severity).walk n
    have made : ∀ d ∈ reported t n r, d.inspection = r.inspection.id := by
      rw [reported, Registered.inspect, walks]
      exact made
    rw [List.flatMap_cons, List.filter_append,
      ih fun q hq => adds q (List.mem_cons_of_mem _ hq)]
    by_cases h : r.inspection.id = id
    · rw [List.filter_cons_of_pos (by simpa using h), List.flatMap_cons,
        List.filter_eq_self.2 fun d hd => by simpa [h] using made d hd]
    · rw [List.filter_cons_of_neg (by simpa using h),
        List.filter_eq_nil_iff.2 fun d hd => by simpa [made d hd] using h, List.nil_append]

/-- Where ids are distinct, one at most is registered under an id. -/
theorem filter_id_eq (same : rs.Perm qs) (distinct : (rs.map (·.inspection.id)).Nodup)
    (id : String) : rs.filter (·.inspection.id = id) = qs.filter (·.inspection.id = id) := by
  have apart : ∀ {xs : List Registered}, (xs.map (·.inspection.id)).Nodup →
      (xs.filter (·.inspection.id = id)).Pairwise (·.inspection.id ≠ ·.inspection.id) :=
    fun h => (List.pairwise_map.1 h).filter _
  refine List.Perm.eq_of_pairwise (fun r q hr hq ne _ => absurd ?_ ne) (apart distinct)
    (apart ((same.map _).nodup_iff.1 distinct)) (same.filter _)
  rw [List.mem_filter, decide_eq_true_eq] at hr hq
  exact hr.2.trans hq.2.symm

/-- The same inspections at the same severities, in another order.  Each has an id of its own and
does nothing but report. -/
structure Reorders (i j : Inspector) : Prop where
  perm : i.registered.Perm j.registered
  distinct : (i.registered.map (·.inspection.id)).Nodup
  adds : ∀ r ∈ i.registered, r.inspection.Adds

theorem diagnostics_inspect (adds : ∀ r ∈ i.registered, r.inspection.Adds) (t : Tree)
    (n : Placed) : (i.inspect t n).diagnostics =
      (i.matching n.kind.language).flatMap (reported t n) :=
  foldl_inspect (fun r hr => adds r (List.mem_of_mem_filter hr)) .none

/-- **Inspectors that differ in their order** report the same, with the reports of one inspection in
the same order. -/
theorem Reorders.interleaves (h : i.Reorders j) (t : Tree) (n : Placed) :
    Diagnostic.Interleaves (i.inspect t n).diagnostics (j.inspect t n).diagnostics := by
  have others : ∀ r ∈ j.registered, r.inspection.Adds := fun r hr =>
    h.adds r (h.perm.mem_iff.2 hr)
  have hi : ∀ r ∈ i.matching n.kind.language, r.inspection.Adds := fun r hr =>
    h.adds r (List.mem_of_mem_filter hr)
  have hj : ∀ r ∈ j.matching n.kind.language, r.inspection.Adds := fun r hr =>
    others r (List.mem_of_mem_filter hr)
  have matching : (i.matching n.kind.language).Perm (j.matching n.kind.language) :=
    h.perm.filter _
  rw [diagnostics_inspect h.adds, diagnostics_inspect others]
  constructor
  case perm => exact matching.flatMap_right _
  case each =>
    intro id
    have distinct : ((i.matching n.kind.language).map (·.inspection.id)).Nodup :=
      h.distinct.sublist (List.filter_sublist.map _)
    rw [filter_reported hi, filter_reported hj, filter_id_eq matching distinct]

end Inspector

namespace Diagnostic

/-- **The sort of diagnostics**: it puts them in order, and this has one outcome.  Reports that are
interleaved in another way come out the same, and so do all reports of inspectors that run the same
inspections in another order. -/
theorem sort_eq_of_interleaves :
    (∀ ds es, Sorts ds es ↔ sort ds = es) ∧
    (∀ ds es, Interleaves ds es → sort ds = sort es) ∧
    ∀ i j : Inspector, i.Reorders j → ∀ t,
      Interleaves (i.findings t).diagnostics (j.findings t).diagnostics ∧ i.run t = j.run t := by
  refine ⟨fun ds es => ⟨fun h => ?_, fun h => h ▸ sorts_sort ds⟩, fun ds es h => h.sort_eq,
    fun i j h t => ⟨h.interleaves t t.top, (h.interleaves t t.top).sort_eq⟩⟩
  exact eq_of_ordered (pairwise_sort ds) (h.ordered.imp precedes_iff.1) fun p => by
    rw [filter_sort, h.stable]

/-- Three inspections report at nested, equal and empty spans. -/
theorem sort_eq_of_interleaves_nested :
    let found (id message : String) (start stop : Nat) : Diagnostic :=
      ⟨id, message, .info, ⟨0, 0, .document, ⟨start, stop⟩, none⟩, none, []⟩
    let ds := [found "z" "first" 0 4, found "z" "second" 0 4, found "z" "late" 4 4,
      found "é" "inner" 0 2, found "a" "last" 4 4]
    let es := [found "é" "inner" 0 2, found "z" "first" 0 4, found "z" "second" 0 4,
      found "a" "last" 4 4, found "z" "late" 4 4]
    ds ≠ es ∧ sort ds = es ∧ sort es = es ∧
      ∀ t, Inspector.default.run t = Inspector.run ⟨Inspector.default.registered.reverse⟩ t := by
  intro found ds es
  have interleaves : Interleaves ds es := by
    refine ⟨by decide +kernel, fun id => ?_⟩
    by_cases known : id ∈ ["a", "z", "é"]
    · revert id
      decide +kernel
    · simp only [List.mem_cons, List.not_mem_nil, or_false, not_or, ← ne_eq] at known
      simp [ds, es, found, known.1.symm, known.2.1.symm, known.2.2.symm]
  have reorders : Inspector.default.Reorders ⟨Inspector.default.registered.reverse⟩ :=
    ⟨(List.reverse_perm _).symm, by decide +kernel, fun r hr => by
      obtain ⟨i, hi, rfl⟩ := List.mem_map.1 hr
      exact Inspection.adds_of_mem_builtin hi⟩
  obtain ⟨sorts, same, runs⟩ := sort_eq_of_interleaves
  have sorted : sort es = es := (sorts es es).1 ⟨.refl _, by decide +kernel, fun _ => rfl⟩
  exact ⟨by decide +kernel, (same ds es interleaves).trans sorted, sorted, fun t =>
    (runs _ _ reorders t).2⟩

end Diagnostic

end SyntaxLint
