import SyntaxLint.Files.Spelling
import SyntaxLint.Proofs.Files.Discovery

/-!
# Proofs — Files — the spelling of paths

A path can be made absolute and then normal: what it is made of is pushed, part by part, behind the
working directory or the root, and of the path that this gives the dots are folded, each `..` with
what stands before it.  A normal path says where it leads and nothing else, so paths of one normal
form are left out alike for what they are below the directory of the settings: whatever dots and
slashes they are spelled with, and whether they are given or found.

* `Path.normal_absolute?`: the normal form is the path of the place that a path leads to.
* `Exclusion.covers_eq`: what is left out, told by texts.
* `Disk.leavesOut_of_normal_eq`: what leads to one place is left out in every spelling.
-/

namespace SyntaxLint

/-! ### Inner parts -/

/-- A part that can stand anywhere behind the first. -/
def Part.IsInner : Part → Prop
  | up => True
  | name s => Path.IsName s
  | _ => False

/-- An inner part is written as one segment, which stands for it. -/
theorem Part.IsInner.spelled {part : Part} (h : part.IsInner) :
    Path.segments part.spelling.toList = [part.spelling.toList] ∧
      Path.part? part.spelling.toList = some part := by
  cases part with
  | root | here => exact h.elim
  | up => decide
  | name s => exact ⟨Path.segments_of_not_mem h.slash, h.part?_toList⟩

namespace Path

variable {p q : Path} {place base here : Place} {part : Part} {parts : List Part}

theorem slash_not_mem_segments {cs s : List Char} (h : s ∈ segments cs) : '/' ∉ s := by
  induction cs generalizing s with
  | nil => simp_all [segments]
  | cons c cs ih =>
    obtain ⟨first, more, split⟩ := exists_segments cs
    rw [split] at ih
    by_cases e : c = '/'
    · simp only [segments, e, if_true, split] at h
      rcases List.mem_cons.1 h with rfl | h
      · simp
      · exact ih h
    · simp only [segments, e, if_false, split, List.headD_cons, List.tail_cons] at h
      rcases List.mem_cons.1 h with rfl | h
      · simpa [Ne.symm e] using ih List.mem_cons_self
      · exact ih (List.mem_cons_of_mem _ h)

/-- What a segment stands for can stand anywhere. -/
theorem isInner_of_part? {s : List Char} (slash : '/' ∉ s) (h : part? s = some part) :
    part.IsInner := by
  rw [part?] at h
  split at h
  case isTrue => cases h
  case isFalse said =>
  split at h
  case isTrue =>
    cases h
    trivial
  case isFalse other =>
    cases h
    simp only [isIdle, Bool.or_eq_true, beq_iff_eq, not_or] at said other
    constructor
    case slash => simpa using slash
    case ne_empty => exact fun e => said.1 (by simpa using congrArg String.toList e)
    case ne_here => exact fun e => said.2 (by simpa using congrArg String.toList e)
    case ne_up => exact fun e => other (by simpa using congrArg String.toList e)

theorem isInner_of_mem_filterMap {cs s : List Char} {ss : List (List Char)}
    (split : segments cs = s :: ss) (h : part ∈ ss.filterMap part?) : part.IsInner := by
  obtain ⟨s', mem, found⟩ := List.mem_filterMap.1 h
  have among : s' ∈ segments cs := split ▸ List.mem_cons_of_mem _ mem
  exact isInner_of_part? (slash_not_mem_segments among) found

/-- **The parts of a path**: the root or a dot may come first, and all others are inner. -/
theorem parts_cases (text : p.text ≠ "") : ∃ rest : List Part, (∀ part ∈ rest, part.IsInner) ∧
    (p.isRooted = true ∧ p.parts = .root :: rest ∨
      p.isRooted = false ∧ (p.parts = rest ∨ p.parts = .here :: rest)) := by
  obtain ⟨s, ss, split⟩ := exists_segments p.text.toList
  have inner : ∀ part ∈ ss.filterMap part?, part.IsInner :=
    fun _ => isInner_of_mem_filterMap split
  by_cases empty : s = []
  case pos =>
    subst empty
    rcases of_segments_eq_nil_cons split with ⟨none, -⟩ | ⟨rooted, ne⟩
    · exact absurd (String.toList_inj.1 none) text
    · refine ⟨_, inner, .inl ⟨by simp [isRooted, rooted], ?_⟩⟩
      simp [parts_of_segments split, firstPart?, ne]
  case neg =>
    have unrooted : p.isRooted = false := by
      simpa [isRooted] using head?_of_segments split empty
    by_cases dot : s = ['.']
    · refine ⟨_, inner, .inr ⟨unrooted, .inr ?_⟩⟩
      simp [parts_of_segments split, firstPart?, dot]
    · have first : firstPart? s ss = part? s := by simp [firstPart?, empty, dot]
      refine ⟨p.parts, fun part mem => ?_, .inr ⟨unrooted, .inl rfl⟩⟩
      rw [parts_of_segments split, first] at mem
      rcases List.mem_append.1 mem with mem | mem
      · have among : s ∈ segments p.text.toList := split ▸ List.mem_cons_self
        exact isInner_of_part? (slash_not_mem_segments among) (Option.mem_toList.1 mem)
      · exact inner part mem

/-! ### Pushing -/

/-- A text that does not begin with a slash is pushed behind a path. -/
theorem push_eq (text : p.text ≠ "") {w : String} (first : w.toList.head? ≠ some '/') :
    p.push w = ⟨p.text ++ (if p.text.toList.getLast? = some '/' then "" else "/") ++ w⟩ := by
  rw [push, if_neg first, if_neg text]

theorem push_inner (text : p.text ≠ "") (h : part.IsInner) :
    (p.push part.spelling).text ≠ "" ∧ (p.push part.spelling).parts = p.parts ++ [part] := by
  have alone := h.spelled
  have first : part.spelling.toList.head? ≠ some '/' := by
    refine head?_of_segments alone.1 fun none => ?_
    have said := alone.2
    rw [none] at said
    cases said
  rw [push_eq text first]
  refine ⟨fun none => text ?_, ?_⟩
  · simp_all
  · rw [parts_joined text, alone.1]
    simp [alone.2]

/-- **Inner parts that are pushed** behind a path are the parts behind those of the path. -/
theorem extend_inner (text : p.text ≠ "") (h : ∀ part ∈ parts, part.IsInner) :
    (p.extend parts).text ≠ "" ∧ (p.extend parts).parts = p.parts ++ parts := by
  induction parts generalizing p with
  | nil => simpa [extend] using text
  | cons part parts ih =>
    rw [List.forall_mem_cons] at h
    obtain ⟨text', longer⟩ := push_inner text h.1
    obtain ⟨text'', whole⟩ := ih text' h.2
    refine ⟨text'', ?_⟩
    change ((p.push part.spelling).extend parts).parts = _
    rw [whole, longer, List.append_assoc]
    rfl

/-- A slash at the end says nothing. -/
theorem parts_push_empty (text : p.text ≠ "") : (p.push "").parts = p.parts := by
  rw [push_eq text (by simp), parts_joined text]
  simp [segments, part?, isIdle]

/-! ### Paths of places -/

theorem text_path_ne (place : Place) : place.path.text ≠ "" := by
  simp [Place.path]

theorem segments_path (named : ∀ s ∈ place, IsName s) : segments place.path.text.toList =
    [] :: (if place = [] then [[]] else place.map String.toList) := by
  have whole : place.path.text.toList = '/' :: ("/".intercalate place).toList := by
    simp [Place.path]
  rw [whole, segments, if_pos rfl]
  split
  case isTrue none => simp [none, segments]
  case isFalse ne => rw [segments_intercalate ne named]

theorem parts_path (named : ∀ s ∈ place, IsName s) :
    place.path.parts = .root :: place.map .name := by
  rw [parts_of_segments (segments_path named)]
  split
  case isTrue none => simp [none, firstPart?, part?, isIdle]
  case isFalse ne => simp [firstPart?, ne, filterMap_part?_names named]

/-- Places made of names are told apart by their paths. -/
theorem place_eq_of_path_eq {place' : Place} (named : ∀ s ∈ place, IsName s)
    (named' : ∀ s ∈ place', IsName s) (h : place.path = place'.path) : place = place' := by
  have parts := congrArg Path.parts h
  rw [parts_path named, parts_path named', List.cons.injEq] at parts
  exact List.map_injective_iff.2 (fun _ _ e => Part.name.inj e) parts.2

/-- A path that is put behind the root or the working directory, without the slash at its end. -/
theorem exists_parts_extended (named : ∀ s ∈ here, IsName s) (text : p.text ≠ "") :
    let whole :=
      if p.isRooted then
        if p.isDoubled then extend ⟨"//"⟩ p.parts.tail else extend ⟨""⟩ p.parts
      else here.path.extend (if p.parts.head? = some .here then p.parts.tail else p.parts)
    whole.text ≠ "" ∧ ∃ rest : List Part, (∀ part ∈ rest, part.IsInner) ∧
      whole.parts = .root :: rest ∧ rest.foldl Place.step [] = p.place here := by
  obtain ⟨rest, inner, ⟨rooted, parts⟩ | ⟨unrooted, parts⟩⟩ := parts_cases text
  case inl =>
    have leads : rest.foldl Place.step [] = p.place here := by rw [Path.place, parts]; rfl
    simp only [rooted, if_true, parts, List.tail_cons]
    split
    case isTrue =>
      obtain ⟨text', whole⟩ := extend_inner (p := ⟨"//"⟩) (by simp) inner
      exact ⟨text', rest, inner, whole, leads⟩
    case isFalse =>
      obtain ⟨text', whole⟩ := extend_inner (p := ⟨"/"⟩) (by simp) inner
      exact ⟨text', rest, inner, whole, leads⟩
  case inr =>
    have added : (if p.parts.head? = some .here then p.parts.tail else p.parts) = rest := by
      rcases parts with parts | parts
      · rw [parts, if_neg]
        intro first
        exact inner _ (List.mem_of_mem_head? first)
      · simp [parts]
    have leads : (here.map Part.name ++ rest).foldl Place.step [] = p.place here := by
      rw [List.foldl_append, Place.foldl_step_names, List.nil_append, Path.place]
      rcases parts with parts | parts <;> rw [parts]
      rfl
    simp only [unrooted, Bool.false_eq_true, if_false, added]
    obtain ⟨text', whole⟩ := extend_inner (text_path_ne here) inner
    refine ⟨text', here.map Part.name ++ rest, ?_, by rw [whole, parts_path named]; rfl, leads⟩
    intro part mem
    rcases List.mem_append.1 mem with mem | mem
    · obtain ⟨s, hs, rfl⟩ := List.mem_map.1 mem
      exact named s hs
    · exact inner part mem

/-- **The parts of an absolute path**: the root, and inner parts that lead from there to where the
path leads. -/
theorem exists_parts_absolute? (named : ∀ s ∈ here, IsName s) (h : p.absolute? here = some q) :
    ∃ rest : List Part, (∀ part ∈ rest, part.IsInner) ∧ q.parts = .root :: rest ∧
      rest.foldl Place.step [] = p.place here := by
  rw [absolute?] at h
  split at h
  case isTrue => cases h
  case isFalse text =>
  obtain ⟨text', whole⟩ := exists_parts_extended named text
  rw [← Option.some.inj h]
  split
  case isTrue => rwa [parts_push_empty text']
  case isFalse => exact whole

/-! ### Normal paths -/

theorem isName_step (named : ∀ s ∈ place, IsName s) (h : part.IsInner) :
    ∀ s ∈ place.step part, IsName s := by
  cases part with
  | root | here => exact h.elim
  | up => exact fun s hs => named s (List.dropLast_subset _ hs)
  | name s =>
    simp only [Place.step, List.mem_append, List.mem_singleton]
    rintro s' (hs | rfl)
    exacts [named s' hs, h]

/-- The path of a place ends in the slash of the root or in a name. -/
theorem getLast?_path (named : ∀ s ∈ place, IsName s) (ne : place ≠ []) :
    place.path.text.toList.getLast? ≠ some '/' := by
  obtain rfl | ⟨above, s, rfl⟩ := List.eq_nil_or_concat' place
  · exact absurd rfl ne
  intro slash
  obtain ⟨cs, ends⟩ := List.getLast?_eq_some_iff.1 slash
  have last := congrArg List.getLast? (segments_path named)
  rw [ends, segments_append, if_neg ne] at last
  have empty : s.toList = [] := by simpa [segments, List.getLast?_cons] using last.symm
  have name : IsName s := named s (by simp)
  exact name.ne_empty (String.toList_inj.1 (by simpa using empty))

/-- A name that is pushed behind the path of a place leads one step down. -/
theorem push_path (named : ∀ s ∈ place, IsName s) {s : String} (h : IsName s) :
    place.path.push s = Place.path (place ++ [s]) := by
  have first : s.toList.head? ≠ some '/' := fun e => h.slash (List.mem_of_mem_head? e)
  rw [push_eq (text_path_ne place) first]
  by_cases ne : place = []
  · simp [ne, Place.path]
  · rw [if_neg (getLast?_path named ne), Place.path, Place.path,
      String.intercalate_append_of_ne_nil ne (by simp)]
    simp [String.append_assoc]

theorem IsName.isIdle_toList {s : String} (h : IsName s) : isIdle s.toList = false := by
  have part := h.part?_toList
  rw [part?] at part
  split at part
  case isTrue => cases part
  case isFalse said => simpa using said

theorem rdropWhile_names (named : ∀ s ∈ place, IsName s) :
    (place.map String.toList).rdropWhile isIdle = place.map String.toList := by
  rw [List.rdropWhile_eq_self_iff]
  intro ne idle
  obtain ⟨s, hs, same⟩ := List.mem_map.1 (List.getLast_mem ne)
  rw [← same, (named s hs).isIdle_toList] at idle
  cases idle

theorem spelled_names (place : Place) :
    spelled ([] :: place.map String.toList) = place.path.text := by
  cases place with
  | nil => rfl
  | cons s names => simp [spelled, Place.path, Function.comp_def]

/-- The path of a place without its last part leads one step up. -/
theorem pop_path (named : ∀ s ∈ place, IsName s) : place.path.pop = Place.path place.dropLast := by
  obtain rfl | ⟨above, s, rfl⟩ := List.eq_nil_or_concat' place
  · rfl
  have named' : ∀ s ∈ above, IsName s := fun s hs => named s (List.mem_append_left _ hs)
  rw [pop, segments_path named, if_neg (by simp)]
  simp only [rdropWhile_names named]
  split
  case h_1 none => simp at none
  case h_2 =>
    rw [List.map_append, List.map_singleton, List.dropLast_concat, rdropWhile_names named',
      spelled_names, List.dropLast_concat]

/-- **Folding inner parts** behind the path of a place is walking from there. -/
theorem foldl_fold (named : ∀ s ∈ place, IsName s) (h : ∀ part ∈ parts, part.IsInner) :
    parts.foldl fold place.path = Place.path (parts.foldl Place.step place) ∧
      ∀ s ∈ parts.foldl Place.step place, IsName s := by
  induction parts generalizing place with
  | nil => exact ⟨rfl, named⟩
  | cons part parts ih =>
    rw [List.forall_mem_cons] at h
    have here : place.path.fold part = Place.path (place.step part) := by
      cases part with
      | root | here => exact h.1.elim
      | up => exact pop_path named
      | name s => exact push_path named h.1
    rw [List.foldl_cons, List.foldl_cons, here]
    exact ih (isName_step named h.1) h.2

/-- **The normal form** of a path is the path of the place where it leads. -/
theorem normal_absolute? (named : ∀ s ∈ here, IsName s) (h : p.absolute? here = some q) :
    q.normal = Place.path (p.place here) ∧ ∀ s ∈ p.place here, IsName s := by
  obtain ⟨rest, inner, parts, leads⟩ := exists_parts_absolute? named h
  have folded : rest.foldl fold (Place.path []) = Place.path (rest.foldl Place.step []) ∧
      ∀ s ∈ rest.foldl Place.step [], IsName s := foldl_fold (List.forall_mem_nil _) inner
  rw [leads] at folded
  refine ⟨?_, folded.2⟩
  rw [normal, parts, ← folded.1]
  rfl

/-! ### What is below -/

theorem dropWhile_names (named : ∀ s ∈ place, IsName s) :
    (place.map String.toList).dropWhile isIdle = place.map String.toList := by
  cases place with
  | nil => rfl
  | cons s names =>
    rw [List.map_cons, List.dropWhile_cons, (named s List.mem_cons_self).isIdle_toList]
    rfl

/-- The names behind those of a place are those on the way down from it. -/
theorem behind?_names (named : ∀ s ∈ place, IsName s) :
    behind? (base.map .name) (place.map String.toList) =
      (base.relative? place).map (·.map String.toList) := by
  induction base generalizing place with
  | nil => simp [behind?, Place.relative?]
  | cons b base ih =>
    cases place with
    | nil => simp [behind?, Place.relative?]
    | cons s place =>
      rw [List.forall_mem_cons] at named
      simp only [List.map_cons, behind?, named.1.part?_toList, Part.name.injEq]
      by_cases same : s = b
      · subst same
        simpa [Place.relative?] using ih named.2
      · simp [Place.relative?, same, Ne.symm same]

/-- **What is below a place**, read off the paths: the names on the way down. -/
theorem relative?_path (named : ∀ s ∈ base, IsName s) (named' : ∀ s ∈ place, IsName s) :
    base.path.relative? place.path = (base.relative? place).map fun names =>
      ⟨"/".intercalate names⟩ := by
  have split := segments_path named'
  have parts := parts_path named
  by_cases ne : place = []
  case pos =>
    subst ne
    rw [if_pos rfl] at split
    simp only [relative?, split, parts]
    cases base with
    | nil => simp [firstPart?, behind?, Place.relative?, isIdle]
    | cons b base => simp [firstPart?, behind?, Place.relative?, part?, isIdle]
  case neg =>
    rw [if_neg ne] at split
    simp only [relative?, split, parts]
    rw [if_pos (by simp [firstPart?, ne]), behind?_names named', Option.map_map]
    refine Option.map_congr fun names found => ?_
    have below : ∀ s ∈ names, IsName s := fun s hs =>
      named' s (Place.eq_append_of_relative? found ▸ List.mem_append_right _ hs)
    simp [dropWhile_names below, rdropWhile_names below, Function.comp_def]

theorem part?_ne_here (s : List Char) : part? s ≠ some .here := by
  rw [part?]
  split
  · simp
  · split <;> simp

/-- A path without its dot is what it goes on with behind a dot. -/
theorem relative?_here (p : Path) : relative? ⟨"./"⟩ p = p.withoutHere? := by
  obtain ⟨s, ss, split⟩ := exists_segments p.text.toList
  have dot : Path.parts ⟨"./"⟩ = [.here] := by decide
  simp only [relative?, withoutHere?, split, dot]
  by_cases first : s = ['.']
  · simp [first, firstPart?, behind?, List.rdropWhile]
  · have other : firstPart? s ss ≠ some .here := by
      rw [firstPart?]
      split
      · split <;> simp
      · simpa [first] using part?_ne_here s
    rw [if_neg other]
    split
    case h_1 e => exact absurd (List.cons.inj e).1 first
    case h_2 => rfl

end Path

/-! ### What is left out -/

/-- What is made of a member of a list is made of the list. -/
theorem mem_of_mapM {α β ε : Type} {f : α → Except ε β} {as : List α} {bs : List β}
    (h : as.mapM f = .ok bs) {a : α} {b : β} (mem : a ∈ as) (made : f a = .ok b) : b ∈ bs := by
  induction as generalizing bs with
  | nil => cases mem
  | cons a' as ih =>
    rw [List.mapM_cons] at h
    cases first : f a' with
    | error e => simp [first, bind, Except.bind] at h
    | ok b' =>
      cases more : as.mapM f with
      | error e => simp [first, more, bind, Except.bind] at h
      | ok bs' =>
        simp only [first, more, bind, Except.bind, pure, Except.pure, Except.ok.injEq] at h
        subst h
        rcases List.mem_cons.1 mem with rfl | mem
        · rw [made] at first
          exact List.mem_cons.2 (.inl (Except.ok.inj first))
        · exact List.mem_cons_of_mem _ (ih more mem)

namespace Exclusion

variable {x : Exclusion} {here : Place} {root top p q : Path}

/-- What a place is left out for is what the normal forms of paths tell. -/
theorem coversPlace_eq (named : ∀ s ∈ here, Path.IsName s)
    (based : x.base = some (root.place here)) (rooted : root.absolute? here = some top)
    (h : p.absolute? here = some q) :
    x.coversPlace (p.place here) = (top.normal.relative? q.normal).any (x.accepts ·.text) := by
  obtain ⟨normal, named'⟩ := Path.normal_absolute? named h
  obtain ⟨normal', named''⟩ := Path.normal_absolute? named rooted
  rw [coversPlace, based, Option.bind_some, normal, normal', Path.relative?_path named'' named']
  cases (root.place here).relative? (p.place here) <;> simp

/-- **What is left out** is told by texts. -/
theorem covers_eq (named : ∀ s ∈ here, Path.IsName s) (based : x.base = some (root.place here))
    (rooted : root.absolute? here = some top) (ne : p.text ≠ "") :
    x.covers here p = x.coversText (some top.normal) here p := by
  obtain ⟨q, h⟩ : ∃ q, p.absolute? here = some q := ⟨_, if_neg ne⟩
  rw [covers, coversText, Path.relative?_here, coversPlace_eq named based rooted h, h,
    Option.bind_some, Option.bind_some]

/-- The patterns that texts write are in the exclusion that they make. -/
theorem of_ofTexts {texts : List String} {base : Option Place} (made : ofTexts texts base = .ok x)
    {text : String} {pattern : Pattern} (mem : text ∈ texts)
    (parsed : Pattern.parse text = .ok pattern) : pattern ∈ x.patterns ∧ x.base = base := by
  rw [ofTexts] at made
  cases all : texts.mapM Pattern.parse with
  | error e => simp [all, bind, Except.bind] at made
  | ok patterns =>
    simp only [all, bind, Except.bind, pure, Except.pure, Except.ok.injEq] at made
    subst made
    exact ⟨mem_of_mapM all mem parsed, rfl⟩

end Exclusion

namespace Disk

variable {d : Disk} {x : Exclusion} {p : Path}

/-- A path is left out, and so is every other that is made of the same parts, whatever is asked
for. -/
structure LeavesOut (d : Disk) (x : Exclusion) (p : Path) : Prop where
  covered : x.covers d.here p = true
  missing : ∀ paths, ∀ r ∈ d.discover x paths, r.parts ≠ p.parts

theorem covers_of_mem_discover {paths : List Path} (h : p ∈ d.discover x paths) :
    x.covers d.here p = false := by
  obtain ⟨path, -, h⟩ := exists_requested_of_mem h
  rw [requested] at h
  split at h
  case h_1 => simpa using (Bool.and_eq_true_iff.1 (List.mem_filter.1 h).2).2
  case h_2 =>
    split at h
    case isTrue kept =>
      obtain rfl := List.mem_singleton.1 h
      simpa using (Bool.and_eq_true_iff.1 kept).2
    case isFalse => cases h

/-- What leads to a place that is left out is left out. -/
theorem leavesOut_of_coversPlace (h : x.coversPlace (p.place d.here) = true) :
    d.LeavesOut x p ∧ ∀ paths, ∀ r ∈ d.discover x paths, r.place d.here ≠ p.place d.here := by
  have covers : ∀ r : Path, r.place d.here = p.place d.here → x.covers d.here r = true := by
    intro r same
    simp [Exclusion.covers, same, h]
  have elsewhere : ∀ paths, ∀ r ∈ d.discover x paths, r.place d.here ≠ p.place d.here := by
    intro paths r mem same
    have kept := covers_of_mem_discover mem
    rw [covers r same] at kept
    cases kept
  exact ⟨⟨covers p rfl, fun paths r mem same => elsewhere paths r mem (Path.place_congr same _)⟩,
    elsewhere⟩

/-- **What leads to one place is left out in every spelling.**  What is left out is told by texts;
and if the common normal form of two paths goes on, behind that of the directory of the settings,
with what a pattern stands for, then both paths are left out, and no list has a path of this normal
form. -/
theorem leavesOut_of_normal_eq (d : Disk) (named : ∀ s ∈ d.here, Path.IsName s)
    {texts : List String} {root top : Path} (rooted : root.absolute? d.here = some top)
    {x : Exclusion} (made : Exclusion.ofTexts texts (some (root.place d.here)) = .ok x)
    {p q p' q' : Path} (hp : p.absolute? d.here = some p') (hq : q.absolute? d.here = some q')
    (same : p'.normal = q'.normal)
    {rest : Path} (below : top.normal.relative? p'.normal = some rest)
    {text : String} {pattern : Pattern} (mem : text ∈ texts)
    (parsed : Pattern.parse text = .ok pattern) (matched : pattern.accepts rest.text = true) :
    (∀ r : Path, r.text ≠ "" → x.covers d.here r = x.coversText (some top.normal) d.here r) ∧
      d.LeavesOut x p ∧ d.LeavesOut x q ∧
      ∀ paths, ∀ r ∈ d.discover x paths, ∀ r', r.absolute? d.here = some r' →
        r'.normal ≠ p'.normal := by
  obtain ⟨listed, based⟩ := Exclusion.of_ofTexts made mem parsed
  have place_eq : ∀ {r r' : Path}, r.absolute? d.here = some r' → r'.normal = p'.normal →
      r.place d.here = p.place d.here := by
    intro r r' hr e
    obtain ⟨normal, named'⟩ := Path.normal_absolute? named hr
    obtain ⟨normal', named''⟩ := Path.normal_absolute? named hp
    exact Path.place_eq_of_path_eq named' named'' (normal ▸ normal' ▸ e)
  have covered : x.coversPlace (p.place d.here) = true := by
    rw [Exclusion.coversPlace_eq named based rooted hp, below]
    exact List.any_eq_true.2 ⟨pattern, listed, matched⟩
  obtain ⟨out, elsewhere⟩ := leavesOut_of_coversPlace covered
  refine ⟨fun r => Exclusion.covers_eq named based rooted, out, ?_,
    fun paths r mem r' hr e => elsewhere paths r mem (place_eq hr e)⟩
  rw [← place_eq hq same.symm] at covered
  exact (leavesOut_of_coversPlace covered).1

/-- A page that is left out, seen from a directory beside it. -/
def built : Disk where
  files := [(["p", "dist", "a.html"], .text "<p>")]
  here := ["p", "web"]

/-- A path that leaves the working directory, and one that goes up from the root. -/
theorem leavesOut_of_dotted :
    let p : Path := ⟨"./..//dist/./a.html"⟩
    let q : Path := ⟨"/../p/web/../dist//a.html"⟩
    let root : Path := ⟨"../web/.."⟩
    p.absolute? built.here = some ⟨"/p/web/../dist/a.html"⟩ ∧
    q.absolute? built.here = some ⟨"/../p/web/../dist/a.html"⟩ ∧
    root.absolute? built.here = some ⟨"/p/web/../web/.."⟩ ∧
    built.requested ⟨[], none⟩ p = [p] ∧ built.requested ⟨[], none⟩ q = [q] ∧
    ∃ x, Exclusion.ofTexts ["dist/**"] (some (root.place built.here)) = .ok x ∧
      (∀ r : Path, r.text ≠ "" →
        x.covers built.here r = x.coversText (some ⟨"/p"⟩) built.here r) ∧
      built.LeavesOut x p ∧ built.LeavesOut x q ∧
      ∀ paths, ∀ r ∈ built.discover x paths, ∀ r', r.absolute? built.here = some r' →
        r'.normal ≠ Path.normal ⟨"/p/web/../dist/a.html"⟩ := by
  intro p q root
  have hp : p.absolute? built.here = some ⟨"/p/web/../dist/a.html"⟩ := by decide
  have hq : q.absolute? built.here = some ⟨"/../p/web/../dist/a.html"⟩ := by decide
  have rooted : root.absolute? built.here = some ⟨"/p/web/../web/.."⟩ := by decide
  have named : ∀ s ∈ built.here, Path.IsName s := by decide
  have below : (Path.normal ⟨"/p/web/../web/.."⟩).relative?
      (Path.normal ⟨"/p/web/../dist/a.html"⟩) = some ⟨"dist/a.html"⟩ := by decide
  have made : ∃ x, Exclusion.ofTexts ["dist/**"] (some (root.place built.here)) = .ok x := ⟨_, rfl⟩
  obtain ⟨x, made⟩ := made
  have normal : Path.normal ⟨"/p/web/../web/.."⟩ = ⟨"/p"⟩ := by decide
  exact ⟨hp, hq, rooted, by decide, by decide, x, made,
    normal ▸ leavesOut_of_normal_eq built named rooted made hp hq (by decide) below
      List.mem_cons_self rfl (by decide)⟩

end Disk

end SyntaxLint
