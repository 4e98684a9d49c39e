import Mathlib.Order.Basic
import SyntaxLint.Files.Disk

/-!
# Proofs — Files — paths

Paths are ordered by their parts, so none comes before another that is made of the same parts, and
of any other two one does.  The path of something below a directory is made of the parts of the
directory and of the names on the way down; where a path is followed to is where its parts lead.

* `Path.le_trans`, `Path.le_total`, `Path.lt_or_eq_of_le`: the order.
* `Path.parts_joined`, `Path.parts_below`: what is behind a path, and what is below a directory.
* `Disk.place_of_resolve?`: where a path is followed to.
-/

namespace SyntaxLint

/-! ### The order -/

namespace Part

/-- What parts are ordered by first. -/
def rank : Part → Nat
  | root => 0
  | here => 1
  | up => 2
  | name _ => 3

/-- What names are ordered by. -/
def text : Part → String
  | name s => s
  | _ => ""

theorem compare_eq : (compare : Part → Part → Ordering) =
    compareLex (compareOn rank) (compareOn text) := by
  funext a b
  cases a <;> cases b <;> first
    | rfl
    | exact Ordering.then_eq

instance : Std.TransOrd Part := by
  rw [Std.TransOrd, compare_eq]
  infer_instance

instance : Std.LawfulEqOrd Part where
  eq_of_compare {a b} h := by
    rw [compare_eq, compareLex_eq_eq] at h
    cases a <;> cases b <;> simp_all [compareOn, rank, text]

end Part

namespace Path

variable {p q r : Path}

theorem le_iff : p.le q = true ↔ (compare p.parts q.parts).isLE = true := by
  rw [le]
  cases compare p.parts q.parts <;> decide

theorem le_trans (h : p.le q = true) (h' : q.le r = true) : p.le r = true := by
  rw [le_iff] at *
  exact Std.TransOrd.isLE_trans h h'

theorem le_total (p q : Path) : (p.le q || q.le p) = true := by
  have turned : compare q.parts p.parts = (compare p.parts q.parts).swap := Std.OrientedCmp.eq_swap
  rw [Bool.or_eq_true, le_iff, le_iff, turned]
  cases compare p.parts q.parts <;> decide

theorem lt_or_eq_of_le (h : p.le q = true) :
    compare p.parts q.parts = .lt ∨ p.parts = q.parts := by
  rw [le_iff, Ordering.isLE_iff_eq_lt_or_eq_eq] at h
  exact h.imp_right Std.LawfulEqOrd.eq_of_compare

end Path

/-! ### Segments -/

namespace Path

variable {cs ds : List Char}

theorem exists_segments (cs : List Char) : ∃ s ss, segments cs = s :: ss :=
  List.exists_cons_of_ne_nil (segments_ne_nil cs)

/-- A slash divides the segments. -/
theorem segments_append (cs ds : List Char) :
    segments (cs ++ '/' :: ds) = segments cs ++ segments ds := by
  induction cs with
  | nil => simp [segments]
  | cons c cs ih =>
    obtain ⟨s, ss, first⟩ := exists_segments cs
    by_cases h : c = '/' <;> simp [segments, h, ih, first]

theorem segments_of_not_mem (h : '/' ∉ cs) : segments cs = [cs] := by
  induction cs with
  | nil => rfl
  | cons c cs ih =>
    rw [List.mem_cons, not_or] at h
    simp [segments, Ne.symm h.1, ih h.2]

/-- The first segment is empty in a text without a character, and before a slash. -/
theorem of_segments_eq_nil_cons {ss : List (List Char)} (h : segments cs = [] :: ss) :
    cs = [] ∧ ss = [] ∨ cs.head? = some '/' ∧ ss ≠ [] := by
  cases cs with
  | nil => exact .inl ⟨rfl, (List.cons.inj h).2.symm⟩
  | cons c cs =>
    by_cases e : c = '/'
    · refine .inr ⟨by rw [e]; rfl, ?_⟩
      rintro rfl
      have text := intercalate_segments (c :: cs)
      rw [h] at text
      cases text
    · simp [segments, e] at h

theorem head?_of_segments {s : List Char} {ss : List (List Char)} (h : segments cs = s :: ss)
    (ne : s ≠ []) : cs.head? ≠ some '/' := by
  cases cs with
  | nil => simp
  | cons c cs =>
    rintro e
    obtain rfl : c = '/' := by simpa using e
    simp only [segments, if_true] at h
    exact ne (List.cons.inj h).1.symm

/-! ### Parts -/

/-- A name that something in a directory can have. -/
structure IsName (s : String) : Prop where
  slash : '/' ∉ s.toList
  ne_empty : s ≠ ""
  ne_here : s ≠ "."
  ne_up : s ≠ ".."

instance (s : String) : Decidable (IsName s) :=
  decidable_of_iff ('/' ∉ s.toList ∧ s ≠ "" ∧ s ≠ "." ∧ s ≠ "..")
    ⟨fun ⟨slash, ne, here, up⟩ => ⟨slash, ne, here, up⟩,
      fun h => ⟨h.slash, h.ne_empty, h.ne_here, h.ne_up⟩⟩

theorem IsName.part?_toList {s : String} (h : IsName s) : part? s.toList = some (.name s) := by
  have ne : ∀ {t : String}, s ≠ t → s.toList ≠ t.toList := fun h e => h (String.toList_inj.1 e)
  have ne_empty := ne h.ne_empty
  have ne_here := ne h.ne_here
  have ne_up := ne h.ne_up
  simp only [String.toList_empty] at ne_empty
  simp [part?, isIdle, ne_empty, show s.toList ≠ ['.'] from ne_here,
    show s.toList ≠ ['.', '.'] from ne_up]

theorem filterMap_part?_names {names : List String} (h : ∀ s ∈ names, IsName s) :
    (names.map String.toList).filterMap part? = names.map .name := by
  induction names with
  | nil => rfl
  | cons s names ih =>
    rw [List.forall_mem_cons] at h
    rw [List.map_cons, List.filterMap_cons, h.1.part?_toList, ih h.2]
    rfl

/-- Names between slashes are the segments. -/
theorem segments_intercalate {names : List String} (ne : names ≠ [])
    (h : ∀ s ∈ names, IsName s) :
    segments ("/".intercalate names).toList = names.map String.toList := by
  induction names with
  | nil => exact absurd rfl ne
  | cons s names ih =>
    rw [List.forall_mem_cons] at h
    cases names with
    | nil => simpa using segments_of_not_mem h.1.slash
    | cons t names =>
      have rest := ih (by simp) h.2
      rw [String.intercalate_cons_cons, String.toList_append, String.toList_append,
        List.append_assoc]
      change segments (s.toList ++ '/' :: ("/".intercalate (t :: names)).toList) = _
      rw [segments_append, segments_of_not_mem h.1.slash, rest]
      rfl

theorem parts_of_segments {p : Path} {s : List Char} {ss : List (List Char)}
    (h : segments p.text.toList = s :: ss) :
    p.parts = (firstPart? s ss).toList ++ ss.filterMap part? := by
  rw [parts, h]

/-- Of what follows the first segment only matters whether there is anything, and only if the
segment is empty. -/
theorem firstPart?_congr {s : List Char} {ss ss' : List (List Char)}
    (h : s = [] → ss ≠ [] ∧ ss' ≠ []) : firstPart? s ss = firstPart? s ss' := by
  by_cases e : s = []
  · obtain ⟨ne, ne'⟩ := h e
    simp [firstPart?, e, ne, ne']
  · simp [firstPart?, e]

/-- A path with a text behind it has the segments of the path, without an empty one at the end, and
behind them those of the text. -/
theorem exists_segments_joined {p : Path} (text : p.text ≠ "") (w : String) :
    ∃ s ss kept, segments p.text.toList = s :: ss ∧ (s = [] → ss ≠ []) ∧
      segments (p.text ++ (if p.text.toList.getLast? = some '/' then "" else "/") ++ w).toList =
        s :: (kept ++ segments w.toList) ∧
      kept.filterMap part? = ss.filterMap part? := by
  by_cases slash : p.text.toList.getLast? = some '/'
  case pos =>
    obtain ⟨cs, ends⟩ := List.getLast?_eq_some_iff.1 slash
    obtain ⟨s, ss, split⟩ := exists_segments cs
    refine ⟨s, ss ++ [[]], ss, ?_, by simp, ?_, by simp [part?, isIdle]⟩
    · rw [ends, segments_append, split]
      rfl
    · have whole : (p.text ++ (if p.text.toList.getLast? = some '/' then "" else "/") ++ w).toList =
          cs ++ '/' :: w.toList := by
        rw [if_pos slash]
        simp only [String.toList_append, ends]
        simp
      rw [whole, segments_append, split]
      rfl
  case neg =>
    obtain ⟨s, ss, split⟩ := exists_segments p.text.toList
    refine ⟨s, ss, ss, split, ?_, ?_, rfl⟩
    · rintro rfl
      rcases of_segments_eq_nil_cons split with ⟨none, -⟩ | ⟨-, more⟩
      · exact absurd (String.toList_inj.1 none) text
      · exact more
    · have whole : (p.text ++ (if p.text.toList.getLast? = some '/' then "" else "/") ++ w).toList =
          p.text.toList ++ '/' :: w.toList := by
        rw [if_neg slash]
        simp
      rw [whole, segments_append, split]
      rfl

/-- **A path with a text behind it** is made of the parts of the path and of those that the segments
of the text stand for. -/
theorem parts_joined {p : Path} (text : p.text ≠ "") (w : String) :
    Path.parts ⟨p.text ++ (if p.text.toList.getLast? = some '/' then "" else "/") ++ w⟩ =
      p.parts ++ (segments w.toList).filterMap part? := by
  obtain ⟨s, ss, kept, split, more, longer, same⟩ := exists_segments_joined text w
  have first : firstPart? s (kept ++ segments w.toList) = firstPart? s ss :=
    firstPart?_congr fun e => ⟨by simp [segments_ne_nil], more e⟩
  rw [parts_of_segments split, parts_of_segments longer, first, List.filterMap_append, same,
    List.append_assoc]

/-- **What is below a directory** is made of the parts of the directory and of names. -/
theorem parts_below {p : Path} (text : p.text ≠ "") {names : List String} (ne : names ≠ [])
    (h : ∀ s ∈ names, IsName s) : (p.below names).parts = p.parts ++ names.map .name := by
  rw [below, parts_joined text, segments_intercalate ne h, filterMap_part?_names h]

end Path

/-! ### Places -/

theorem Place.foldl_step_names (p : Place) (names : List String) :
    (names.map Part.name).foldl Place.step p = p ++ names := by
  induction names generalizing p with
  | nil => simp
  | cons s names ih => simp [ih, Place.step]

namespace Path

theorem place_congr {p q : Path} (h : p.parts = q.parts) (here : Place) :
    p.place here = q.place here := by
  rw [place, place, h]

end Path

namespace Disk

variable {d : Disk}

theorem place_of_foldlM {segments : List (List Char)} {p q : Place}
    (h : segments.foldlM d.advance? p = some q) :
    q = (segments.filterMap Path.part?).foldl Place.step p := by
  induction segments generalizing p with
  | nil => exact (Option.some.inj h).symm
  | cons s segments ih =>
    rw [List.foldlM_cons] at h
    obtain ⟨r, step, h⟩ := Option.bind_eq_some_iff.1 h
    rw [ih h, List.filterMap_cons]
    rw [advance?] at step
    split at step
    · obtain rfl := Option.some.inj step
      cases Path.part? s <;> rfl
    · cases step

/-- **Where a path is followed to** is where its parts lead. -/
theorem place_of_resolve? {path : Path} {place : Place} (h : d.resolve? path = some place) :
    path.text ≠ "" ∧ place = path.place d.here := by
  rw [resolve?] at h
  split at h
  case isTrue => cases h
  case isFalse some =>
  have text : path.text ≠ "" := by simpa using some
  refine ⟨text, ?_⟩
  obtain ⟨s, ss, split⟩ := Path.exists_segments path.text.toList
  rw [place_of_foldlM h, split, Path.place, Path.parts_of_segments split]
  by_cases e : s = []
  case pos =>
    subst e
    rcases Path.of_segments_eq_nil_cons split with ⟨none, -⟩ | ⟨rooted, ne⟩
    · exact absurd (String.toList_inj.1 none) text
    · simp [Path.isRooted, rooted, Path.firstPart?, ne, Path.part?, Path.isIdle, Place.step]
  case neg =>
    have unrooted : path.isRooted = false := by
      simpa [Path.isRooted] using Path.head?_of_segments split e
    by_cases dot : s = ['.']
    · simp [unrooted, dot, Path.firstPart?, Path.part?, Path.isIdle, Place.step]
    · cases part : Path.part? s <;> simp [unrooted, e, dot, Path.firstPart?, part]

end Disk

end SyntaxLint
