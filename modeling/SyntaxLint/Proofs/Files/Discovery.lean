import Mathlib.Data.List.Forall2
import Mathlib.Data.List.Nodup
import SyntaxLint.Command.Run
import SyntaxLint.Proofs.Files.Paths

/-!
# Proofs — Files — what is discovered

The files that paths ask for are put in order and told apart by the parts of their paths.  So a
file is listed once for each way its path is made of parts, and not once for the place it is at:
`a` and `./a` lead to one place and are two files of the list.  A list that is asked for in one way
of writing has every file once.

* `Path.ascending_distinct`: the order of the list.
* `Disk.Discovered`: what is in the list, and when no two of it lead to the same place.
* `Disk.discovered_and_checked`: the list, and the check of the files of it.
-/

namespace SyntaxLint

namespace Path

variable {ps : List Path} {p : Path}

/-- Paths in order, no two of which are made of the same parts. -/
def Ascending (ps : List Path) : Prop := ps.Pairwise fun p q => compare p.parts q.parts = .lt

/-- **Of paths in order** those are left that are told apart by their parts, in order. -/
theorem ascending_distinct (h : ps.Pairwise fun p q => p.le q = true) :
    Ascending (distinct ps) := by
  induction ps with
  | nil => exact .nil
  | cons p ps ih =>
    obtain ⟨least, sorted⟩ := List.pairwise_cons.1 h
    have rest := ih sorted
    rw [distinct]
    cases left : distinct ps with
    | nil => exact List.pairwise_singleton ..
    | cons q qs =>
      rw [left] at rest
      obtain ⟨next, -⟩ := List.pairwise_cons.1 rest
      have mem : q ∈ ps := (distinct_sublist ps).subset (by rw [left]; exact List.mem_cons_self)
      rcases lt_or_eq_of_le (least q mem) with lt | same
      · have ne : p.parts ≠ q.parts := by
          intro same
          rw [same, Std.compare_self] at lt
          cases lt
        simp only [if_neg ne]
        refine List.pairwise_cons.2 ⟨List.forall_mem_cons.2 ⟨lt, fun r hr => ?_⟩, rest⟩
        exact Std.TransCmp.lt_trans lt (next r hr)
      · simp only [if_pos same]
        exact List.pairwise_cons.2 ⟨fun r hr => same ▸ next r hr, (List.pairwise_cons.1 rest).2⟩

/-- Of every path there is one left that is made of the same parts. -/
theorem exists_mem_distinct (h : p ∈ ps) : ∃ q ∈ distinct ps, q.parts = p.parts := by
  induction ps with
  | nil => cases h
  | cons r ps ih =>
    rw [distinct]
    cases left : distinct ps with
    | nil =>
      rw [left] at ih
      rcases List.mem_cons.1 h with rfl | h
      · exact ⟨p, List.mem_cons_self, rfl⟩
      · obtain ⟨q, none, -⟩ := ih h
        cases none
    | cons q qs =>
      rw [left] at ih
      by_cases same : r.parts = q.parts
      case pos =>
        simp only [if_pos same]
        rcases List.mem_cons.1 h with rfl | h
        · exact ⟨p, List.mem_cons_self, rfl⟩
        · obtain ⟨t, mem, parts⟩ := ih h
          rcases List.mem_cons.1 mem with rfl | mem
          · exact ⟨r, List.mem_cons_self, same.trans parts⟩
          · exact ⟨t, List.mem_cons_of_mem _ mem, parts⟩
      case neg =>
        simp only [if_neg same]
        rcases List.mem_cons.1 h with rfl | h
        · exact ⟨p, List.mem_cons_self, rfl⟩
        · obtain ⟨t, mem, parts⟩ := ih h
          exact ⟨t, List.mem_cons_of_mem _ mem, parts⟩

end Path

namespace Disk

variable {d : Disk} {x : Exclusion} {paths : List Path} {p q : Path}

/-- No two paths lead to the same place. -/
def Once (d : Disk) (ps : List Path) : Prop := (ps.map (·.place d.here)).Nodup

/-- A disk whose files have names that files can have, and are in directories that have. -/
def Named (d : Disk) : Prop := ∀ f ∈ d.files, ∀ s ∈ f.1, Path.IsName s

/-! ### What a path asks for -/

theorem exists_of_mem_filesBelow {path : Path} {place : Place}
    (h : p ∈ d.filesBelow path place) :
    ∃ f ∈ d.files, ∃ names : List String,
      names ≠ [] ∧ f.1 = place ++ names ∧ p = path.below names := by
  rw [filesBelow] at h
  obtain ⟨f, mem, h⟩ := List.mem_filterMap.1 h
  split at h
  case h_1 => cases h
  case h_2 => cases h
  case h_3 names ne found =>
    refine ⟨f, mem, names, fun none => ne none, Place.eq_append_of_relative? found, ?_⟩
    exact (Option.some.inj h).symm

/-- **What a path asks for** is made of its parts, and of the names below it if it is a
directory. -/
theorem exists_parts_of_requested (named : d.Named) {path : Path}
    (h : p ∈ d.requested x path) :
    ∃ names : List String, p.parts = path.parts ++ names.map .name := by
  rw [requested] at h
  split at h
  case h_1 place found =>
    obtain ⟨resolved, -⟩ := Option.filter_eq_some_iff.1 found
    obtain ⟨f, mem, names, ne, split, rfl⟩ := exists_of_mem_filesBelow (List.mem_filter.1 h).1
    refine ⟨names, Path.parts_below (place_of_resolve? resolved).1 ne fun s hs => ?_⟩
    exact named f mem s (split ▸ List.mem_append_right _ hs)
  case h_2 =>
    split at h
    case isTrue =>
      obtain rfl := List.mem_singleton.1 h
      exact ⟨[], by simp⟩
    case isFalse => cases h

/-! ### The list -/

/-- What is discovered: for everything that is asked for one path of the same parts, in order.  No
two of the paths lead to the same place just if there is one way to make any of these places of
parts; so it is if all paths that were given begin alike and go on with names. -/
structure Discovered (d : Disk) (x : Exclusion) (paths found : List Path) : Prop where
  asked : ∀ p ∈ found, ∃ path ∈ paths, p ∈ d.requested x path
  all : ∀ path ∈ paths, ∀ p ∈ d.requested x path, ∃ q ∈ found, q.parts = p.parts
  ascending : Path.Ascending found
  once_iff : d.Once found ↔ ∀ path ∈ paths, ∀ p ∈ d.requested x path,
    ∀ path' ∈ paths, ∀ q ∈ d.requested x path', p.place d.here = q.place d.here →
      p.parts = q.parts
  once : d.Named → ∀ base : List Part,
    (∀ path ∈ paths, ∃ names : List String, path.parts = base ++ names.map .name) → d.Once found

theorem exists_requested_of_mem (h : p ∈ d.discover x paths) :
    ∃ path ∈ paths, p ∈ d.requested x path := by
  rw [discover] at h
  have mem := (Path.distinct_sublist _).subset h
  rwa [(List.mergeSort_perm _ _).mem_iff, List.mem_flatMap] at mem

theorem exists_mem_of_requested {path : Path} (mem : path ∈ paths)
    (h : p ∈ d.requested x path) : ∃ q ∈ d.discover x paths, q.parts = p.parts := by
  rw [discover]
  refine Path.exists_mem_distinct ?_
  rw [(List.mergeSort_perm _ _).mem_iff]
  exact List.mem_flatMap_of_mem mem h

theorem ascending_discover (d : Disk) (x : Exclusion) (paths : List Path) :
    Path.Ascending (d.discover x paths) := by
  rw [discover]
  refine Path.ascending_distinct (List.pairwise_mergeSort ?_ ?_ _)
  · exact fun _ _ _ => Path.le_trans
  · exact Path.le_total

/-- Of what is asked for, what is made of the same parts leads to the same place. -/
theorem once_iff_of_all {found : List Path} (ascending : Path.Ascending found)
    (asked : ∀ p ∈ found, ∃ path ∈ paths, p ∈ d.requested x path)
    (all : ∀ path ∈ paths, ∀ p ∈ d.requested x path, ∃ q ∈ found, q.parts = p.parts) :
    d.Once found ↔ ∀ path ∈ paths, ∀ p ∈ d.requested x path,
      ∀ path' ∈ paths, ∀ q ∈ d.requested x path', p.place d.here = q.place d.here →
        p.parts = q.parts := by
  constructor
  · intro once path mem p hp path' mem' q hq same
    obtain ⟨p', found_p, parts⟩ := all path mem p hp
    obtain ⟨q', found_q, parts'⟩ := all path' mem' q hq
    have places : p'.place d.here = q'.place d.here := by
      rw [Path.place_congr parts, Path.place_congr parts', same]
    rw [← parts, ← parts', List.inj_on_of_nodup_map once found_p found_q places]
  · intro told
    rw [Once, List.Nodup, List.pairwise_map]
    refine ascending.imp_of_mem fun {p q} hp hq lt same => ?_
    obtain ⟨path, mem, hp⟩ := asked p hp
    obtain ⟨path', mem', hq⟩ := asked q hq
    rw [told path mem p hp path' mem' q hq same, Std.compare_self] at lt
    cases lt

/-- Names below the same parts are told apart by the places they lead to. -/
theorem parts_eq_of_place_eq {base : List Part} {names names' : List String}
    (hp : p.parts = base ++ names.map .name) (hq : q.parts = base ++ names'.map .name)
    (same : p.place d.here = q.place d.here) : p.parts = q.parts := by
  rw [Path.place, Path.place, hp, hq, List.foldl_append, List.foldl_append,
    Place.foldl_step_names, Place.foldl_step_names] at same
  rw [hp, hq, List.append_cancel_left same]

theorem discovered (d : Disk) (x : Exclusion) (paths : List Path) :
    d.Discovered x paths (d.discover x paths) := by
  have ascending := d.ascending_discover x paths
  have asked : ∀ p ∈ d.discover x paths, ∃ path ∈ paths, p ∈ d.requested x path :=
    fun _ => exists_requested_of_mem
  have all : ∀ path ∈ paths, ∀ p ∈ d.requested x path,
      ∃ q ∈ d.discover x paths, q.parts = p.parts :=
    fun _ mem _ => exists_mem_of_requested mem
  have once_iff := once_iff_of_all ascending asked all
  refine ⟨asked, all, ascending, once_iff, fun named base alike => once_iff.2 ?_⟩
  have below : ∀ path ∈ paths, ∀ p ∈ d.requested x path,
      ∃ names : List String, p.parts = base ++ names.map .name := by
    intro path mem p hp
    obtain ⟨names, parts⟩ := alike path mem
    obtain ⟨more, parts'⟩ := exists_parts_of_requested named hp
    exact ⟨names ++ more, by rw [parts', parts, List.map_append, List.append_assoc]⟩
  intro path mem p hp path' mem' q hq same
  obtain ⟨names, parts⟩ := below path mem p hp
  obtain ⟨names', parts'⟩ := below path' mem' q hq
  exact parts_eq_of_place_eq parts parts' same

end Disk

/-! ### The check of what is discovered -/

/-- The check of a file speaks of this file and writes no other. -/
structure Checked.About (p : Path) (c : Checked) : Prop where
  reported : (c.report?.toList.map (·.path)).Sublist [p]
  written : (c.writes.map (·.1)).Sublist [p]

namespace Checked

variable {ps : List Path} {cs : List Checked}

theorem reported_sublist (h : List.Forall₂ About ps cs) :
    ((cs.filterMap (·.report?)).map (·.path)).Sublist ps := by
  induction h with
  | nil => exact .slnil
  | @cons p c ps cs about _ ih =>
    have first := about.reported
    cases given : c.report? with
    | none => simpa [given] using ih.cons p
    | some r =>
      rw [given] at first
      simpa [given] using first.append ih

theorem written_sublist (h : List.Forall₂ About ps cs) :
    ((cs.flatMap (·.writes)).map (·.1)).Sublist ps := by
  induction h with
  | nil => exact .slnil
  | cons about _ ih =>
    rw [List.flatMap_cons, List.map_append]
    exact about.written.append ih

end Checked

theorem Source.about_check (s : Source) (i : Inspector) (limit : Nat) (mode : FixMode) :
    (s.check i limit mode).About s.path := by
  cases mode with
  | leave => exact ⟨.refl _, List.nil_sublist _⟩
  | preview => exact ⟨.refl _, List.nil_sublist _⟩
  | apply =>
    rw [check, fix]
    split
    · exact ⟨.refl _, .refl _⟩
    · exact ⟨.refl _, List.nil_sublist _⟩

theorem Source.path_of_load {d : Disk} {identity : TreeId} {path : Path} {s : Source}
    (h : Source.load d identity path = .ok s) : s.path = path := by
  rw [load] at h
  split at h
  case h_1 => cases h
  case h_2 form _ =>
  split at h
  case h_1 => cases h
  case h_2 => cases h
  case h_3 text _ =>
    cases parsed : form.tree identity text with
    | error e => rw [parsed] at h; cases h
    | ok t => rw [parsed] at h; cases h; rfl

namespace Disk

variable {d : Disk} {ps qs : List Path}

theorem about_check (d : Disk) (i : Inspector) (limit : Nat) (mode : FixMode)
    (identity : TreeId) (path : Path) : (d.check i limit mode identity path).About path := by
  rw [check]
  split
  case h_1 s loaded => exact Source.path_of_load loaded ▸ s.about_check i limit mode
  case h_2 => exact ⟨List.nil_sublist _, List.nil_sublist _⟩

theorem Once.sublist (h : d.Once qs) (sub : ps.Sublist qs) : d.Once ps :=
  (sub.map _).nodup h

/-- **What is discovered is checked**, each path of the list once, and the files that are written
are of the list.  So no file is reported on twice or written twice when no two paths of the list
lead to the same place. -/
theorem discovered_and_checked (d : Disk) (paths : List Path) :
    (∀ x, d.Discovered x paths (d.discover x paths)) ∧
    ∀ settings layout mode o, Command.run d settings (.check paths layout mode) = .ok o →
      ∃ s x cs, LocatedSettings.load d settings = .ok s ∧ s.exclusion = .ok x ∧
        o = .ofChecked layout mode cs ∧ List.Forall₂ Checked.About (d.discover x paths) cs ∧
        (d.Once (d.discover x paths) →
          d.Once ((cs.filterMap (·.report?)).map (·.path)) ∧ d.Once (o.writes.map (·.1))) := by
  refine ⟨fun x => d.discovered x paths, fun settings layout mode o h => ?_⟩
  rw [Command.run] at h
  cases loaded : LocatedSettings.load d settings with
  | error e => rw [loaded] at h; cases h
  | ok s =>
  rw [loaded] at h
  cases asked : s.inspector with
  | error e => simp [asked, bind, Except.bind] at h
  | ok i =>
  cases left : s.exclusion with
  | error e => simp [asked, left, bind, Except.bind] at h
  | ok x =>
  simp only [asked, left, bind, Except.bind, pure, Except.pure, Except.ok.injEq] at h
  subst h
  have about : List.Forall₂ Checked.About (d.discover x paths)
      ((d.discover x paths).mapIdx fun identity path =>
        d.check i s.settings.maxRounds mode identity path) := by
    refine List.forall₂_iff_get.2 ⟨List.length_mapIdx.symm, fun k hk hk' => ?_⟩
    simp only [List.get_eq_getElem, List.getElem_mapIdx]
    exact d.about_check ..
  exact ⟨s, x, _, rfl, left, rfl, about, fun once =>
    ⟨once.sublist (Checked.reported_sublist about), once.sublist (Checked.written_sublist about)⟩⟩

/-- A file, and a directory with another. -/
def two : Disk := ⟨[(["a.html"], .text "<p>"), (["b", "c.html"], .text "<p>")], [], []⟩

/-- Of overlapping paths with no dots in them every file is listed, checked and written once. -/
theorem discovered_and_checked_of_overlapping :
    let paths : List Path := [⟨"b"⟩, ⟨"a.html"⟩, ⟨"b/c.html"⟩]
    two.Named ∧ (∀ path ∈ paths, ∃ names : List String, path.parts = [] ++ names.map .name) ∧
    two.Once (two.discover ⟨[], none⟩ paths) ∧
    ∃ cs o, Command.run two none (.check paths .text .apply) = .ok o ∧
      o = .ofChecked .text .apply cs ∧ two.Once (o.writes.map (·.1)) := by
  intro paths
  have named : two.Named := by
    unfold Named
    decide
  have alike : ∀ path ∈ paths, ∃ names : List String,
      path.parts = [] ++ names.map .name := by
    refine List.forall_mem_cons.2 ⟨⟨["b"], by decide⟩, List.forall_mem_cons.2
      ⟨⟨["a.html"], by decide⟩, List.forall_mem_cons.2 ⟨⟨["b", "c.html"], by decide⟩, ?_⟩⟩⟩
    exact List.forall_mem_nil _
  obtain ⟨listed, checked⟩ := two.discovered_and_checked paths
  have ran : ∃ o, Command.run two none (.check paths .text .apply) = .ok o := ⟨_, rfl⟩
  obtain ⟨o, ran⟩ := ran
  obtain ⟨s, x, cs, -, -, shown, -, once⟩ := checked none .text .apply o ran
  have once' := once ((listed x).once named [] alike)
  exact ⟨named, alike, (listed _).once named [] alike, cs, o, ran, shown, once'.2⟩

/-- A path and another that begins with a dot are two paths of the list, though they lead to one
file. -/
theorem not_once_of_dotted :
    ¬ two.Once (two.discover ⟨[], none⟩ [⟨"a.html"⟩, ⟨"./a.html"⟩]) := by
  rw [(two.discovered ⟨[], none⟩ _).once_iff]
  intro told
  have := told ⟨"a.html"⟩ (by decide) ⟨"a.html"⟩ (by decide) ⟨"./a.html"⟩ (by decide)
    ⟨"./a.html"⟩ (by decide) (by decide)
  revert this
  decide

end Disk

end SyntaxLint
