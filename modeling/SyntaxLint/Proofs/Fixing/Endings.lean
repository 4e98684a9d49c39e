import Mathlib.Data.List.Nodup
import Mathlib.Logic.Function.Iterate
import SyntaxLint.Fixing.Rounds

/-!
# Proofs — Fixing — how rounds end

Rounds go on while each applies a fix and leads to a text that was not there before.  The report
tells which of the two failed, or that as many rounds were made as allowed, and how many fixes were
applied: whatever the tree, the inspector and the formatter, which may undo what a fix did.

* `Rounds.after`, `Rounds.outcomesIn`: the trees between rounds, and what the fixes of a round end
  in.
* `Rounds.Standing`, `Rounds.Standing.next`: what holds before a round, and after one more.
* `Rounds.truthful_fixAll`: the report of all rounds.
-/

namespace SyntaxLint.Rounds

variable {i : Inspector} {format : Formatter} {t : Tree} {p : Progress} {d : Diagnostic}
  {ds : List Diagnostic} {made left limit : Nat}

/-! ### Rounds one by one -/

/-- A tree after the first fix of a diagnostic was tried. -/
def tried (format : Formatter) (t : Tree) (d : Diagnostic) : Tree :=
  match d.fixes with
  | [] => t
  | fix :: _ => (fix.apply format t d.anchor).tree

/-- What the first fixes of diagnostics end in, each tried on the tree that the one before left. -/
def outcomes (format : Formatter) (t : Tree) : List Diagnostic → List (Except FixError FixOutcome)
  | [] => []
  | d :: ds =>
    match d.fixes with
    | [] => outcomes format t ds
    | fix :: _ =>
      (fix.apply format t d.anchor).outcome :: outcomes format (fix.apply format t d.anchor).tree ds

/-- A tree after one round. -/
def pass (i : Inspector) (format : Formatter) (t : Tree) : Tree :=
  (i.run t).foldl (tried format) t

/-- A tree after a number of rounds. -/
def after (i : Inspector) (format : Formatter) (t : Tree) (n : Nat) : Tree :=
  (pass i format)^[n] t

/-- What the fixes end in that are tried in the round after `n` others. -/
def outcomesIn (i : Inspector) (format : Formatter) (t : Tree) (n : Nat) :
    List (Except FixError FixOutcome) :=
  outcomes format (after i format t n) (i.run (after i format t n))

/-- The number of fixes that `n` rounds apply. -/
def appliedBy (i : Inspector) (format : Formatter) (t : Tree) (n : Nat) : Nat :=
  ((List.range n).flatMap (outcomesIn i format t)).countP isApplied

/-- The round after `n` others applies a fix. -/
def Busy (i : Inspector) (format : Formatter) (t : Tree) (n : Nat) : Prop :=
  ∃ o ∈ outcomesIn i format t n, isApplied o = true

/-- The texts before and after each of `n` rounds, oldest first. -/
def sources (i : Inspector) (format : Formatter) (t : Tree) (n : Nat) : List String :=
  (List.range (n + 1)).map fun k => (after i format t k).source

theorem after_succ (i : Inspector) (format : Formatter) (t : Tree) (n : Nat) :
    after i format t (n + 1) = pass i format (after i format t n) :=
  Function.iterate_succ_apply' _ _ _

theorem appliedBy_succ (i : Inspector) (format : Formatter) (t : Tree) (n : Nat) :
    appliedBy i format t (n + 1) =
      appliedBy i format t n + (outcomesIn i format t n).countP isApplied := by
  simp [appliedBy, List.range_succ]

theorem sources_succ (i : Inspector) (format : Formatter) (t : Tree) (n : Nat) :
    sources i format t (n + 1) = sources i format t n ++ [(after i format t (n + 1)).source] := by
  simp [sources, List.range_succ]

theorem busy_iff {n : Nat} :
    Busy i format t n ↔ (outcomesIn i format t n).countP isApplied ≠ 0 := by
  rw [← Nat.pos_iff_ne_zero, List.countP_pos_iff]
  rfl

theorem tree_applyFirst (format : Formatter) (p : Progress) (d : Diagnostic) :
    (applyFirst format p d).tree = tried format p.tree d := by
  unfold applyFirst tried
  cases d.fixes <;> rfl

/-- The fixes of a round are tried one after the other. -/
theorem foldl_applyFirst (format : Formatter) (ds : List Diagnostic) (p : Progress) :
    (ds.foldl (applyFirst format) p).tree = ds.foldl (tried format) p.tree ∧
      (ds.foldl (applyFirst format) p).applied =
        p.applied + (outcomes format p.tree ds).countP isApplied := by
  induction ds generalizing p with
  | nil => exact ⟨rfl, rfl⟩
  | cons d ds ih =>
    obtain ⟨tree, applied⟩ := ih (applyFirst format p d)
    refine ⟨by rw [List.foldl_cons, List.foldl_cons, tree, tree_applyFirst], ?_⟩
    rw [List.foldl_cons, applied, tree_applyFirst]
    cases fixes : d.fixes with
    | nil => simp [applyFirst, tried, outcomes, fixes]
    | cons fix more =>
      simp only [applyFirst, tried, outcomes, fixes, List.countP_cons]
      omega

/-- What a round makes of a tree that `made` rounds led to. -/
theorem round_of_eq (tree : p.tree = after i format t made) :
    (round i format p).tree = after i format t (made + 1) ∧ (round i format p).applied =
      p.applied + (outcomesIn i format t made).countP isApplied := by
  obtain ⟨tree', applied⟩ := foldl_applyFirst format (i.run p.tree) (note p (i.findings p.tree))
  refine ⟨?_, ?_⟩
  · rw [after_succ, ← tree]
    exact tree'
  · rw [outcomesIn, ← tree]
    exact applied

/-! ### All rounds -/

/-- What holds before a round when rounds were made: each applied a fix and led to a new text. -/
structure Standing (i : Inspector) (format : Formatter) (t : Tree) (made : Nat) (p : Progress) :
    Prop where
  tree : p.tree = after i format t made
  applied : p.applied = appliedBy i format t made
  busy : ∀ k < made, Busy i format t k
  fresh : (sources i format t made).Nodup

theorem standing_start (i : Inspector) (format : Formatter) (t : Tree) :
    Standing i format t 0 (start t) :=
  ⟨rfl, rfl, fun k lt => absurd lt (Nat.not_lt_zero k), List.nodup_singleton _⟩

/-- **One more round**: it applies no fix, or leads to a text that was there before, or leaves
things standing. -/
theorem Standing.next (h : Standing i format t made p) :
    (round i format p).tree = after i format t (made + 1) ∧
    (round i format p).applied = appliedBy i format t (made + 1) ∧
    ((round i format p).applied = p.applied ↔ ¬ Busy i format t made) ∧
    (Busy i format t made → (round i format p).tree.source ∉ sources i format t made →
      Standing i format t (made + 1) (round i format p)) := by
  obtain ⟨tree, applied⟩ := round_of_eq h.tree
  have total : (round i format p).applied = appliedBy i format t (made + 1) := by
    rw [applied, h.applied, appliedBy_succ]
  refine ⟨tree, total, ?_, fun busy new => ⟨tree, total, fun k lt => ?_, ?_⟩⟩
  · rw [applied, busy_iff]
    omega
  · rcases Nat.lt_succ_iff_lt_or_eq.1 lt with before | rfl
    · exact h.busy k before
    · exact busy
  · rw [tree] at new
    rw [sources_succ, List.nodup_append]
    refine ⟨h.fresh, List.nodup_singleton _, fun a old b last => ?_⟩
    obtain rfl := List.mem_singleton.1 last
    rintro rfl
    exact new old

/-- How rounds ended of which `ran` were made, when at most `most` were allowed; no ending is given
where all of these left things standing. -/
structure Ran (i : Inspector) (format : Formatter) (t : Tree) (most ran : Nat)
    (ending : Option Ending) (p : Progress) : Prop where
  bound : ran ≤ most
  tree : p.tree = after i format t ran
  applied : p.applied = appliedBy i format t ran
  busy : ∀ k, k + 1 < ran → Busy i format t k
  fresh : ((List.range ran).map fun k => (after i format t k).source).Nodup
  unended : ending = none → ran = most ∧ Standing i format t ran p
  converged : ∀ k, ending = some (.converged k) → k = ran ∧ 1 ≤ ran ∧ ¬ Busy i format t (ran - 1)
  cycle : ∀ c, ending = some (.cycle c) → 1 ≤ c ∧ c ≤ ran ∧
    (after i format t ran).source = (after i format t (ran - c)).source
  unlimited : ∀ n, ending ≠ some (.limit n)

theorem Standing.ran (h : Standing i format t made p) : Ran i format t made made none p where
  bound := Nat.le_refl _
  tree := h.tree
  applied := h.applied
  busy k lt := h.busy k (Nat.lt_of_succ_lt lt)
  fresh := by
    have fresh := h.fresh
    rw [sources, List.range_succ, List.map_append, List.nodup_append] at fresh
    exact fresh.1
  unended _ := ⟨rfl, h⟩
  converged _ e := nomatch e
  cycle _ e := nomatch e
  unlimited _ e := nomatch e

/-- One more round, with which it ends. -/
theorem Standing.ended (h : Standing i format t made p) {most : Nat} (bound : made + 1 ≤ most)
    {ending : Ending}
    (converged : ∀ k, ending = .converged k → k = made + 1 ∧ ¬ Busy i format t made)
    (cycle : ∀ c, ending = .cycle c → 1 ≤ c ∧ c ≤ made + 1 ∧
      (after i format t (made + 1)).source = (after i format t (made + 1 - c)).source)
    (unlimited : ∀ n, ending ≠ .limit n) :
    Ran i format t most (made + 1) (some ending) (round i format p) where
  bound := bound
  tree := h.next.1
  applied := h.next.2.1
  busy k lt := h.busy k (Nat.lt_of_succ_lt_succ lt)
  fresh := h.fresh
  unended e := nomatch e
  converged k e := by
    obtain ⟨rfl, quiet⟩ := converged k (Option.some.inj e)
    exact ⟨rfl, Nat.le_add_left 1 made, quiet⟩
  cycle c e := cycle c (Option.some.inj e)
  unlimited n e := unlimited n (Option.some.inj e)

/-- **Rounds from anywhere**: they go on while they leave things standing. -/
theorem Standing.iterate (h : Standing i format t made p) (left : Nat) :
    ∃ ran, made + min left 1 ≤ ran ∧
      Ran i format t (made + left) ran
        (iterate i format left made (sources i format t made) p).1
        (iterate i format left made (sources i format t made) p).2 := by
  -- by induction on the rounds left: each ends here or leaves things standing for the others
  induction left generalizing made p with
  | zero => exact ⟨made, by omega, h.ran⟩
  | succ left ih =>
    obtain ⟨tree, -, quiet, standing⟩ := h.next
    rw [Rounds.iterate]
    by_cases none : (round i format p).applied = p.applied
    · refine ⟨made + 1, by omega, ?_⟩
      simp only [none, if_true]
      refine h.ended (by omega) ?_ nofun nofun
      rintro k ⟨⟩
      exact ⟨rfl, quiet.1 none⟩
    · have busy : Busy i format t made := not_not.1 fun idle => none (quiet.2 idle)
      simp only [none, if_false]
      cases seen : (sources i format t made).findIdx? (· == (round i format p).tree.source) with
      | none =>
        have new : (round i format p).tree.source ∉ sources i format t made := by
          intro old
          simpa using List.findIdx?_eq_none_iff.1 seen _ old
        obtain ⟨ran, more, ended⟩ := ih (standing busy new)
        rw [sources_succ, ← tree] at ended
        exact ⟨ran, by omega, Nat.add_right_comm made 1 left ▸ ended⟩
      | some k =>
        obtain ⟨inside, same, -⟩ := List.findIdx?_eq_some_iff_getElem.1 seen
        have length : (sources i format t made).length = made + 1 := by simp [sources]
        have back : made + 1 - (made + 1 - k) = k := by omega
        simp only [sources, List.getElem_map, List.getElem_range, beq_iff_eq] at same
        refine ⟨made + 1, by omega, ?_⟩
        rw [length]
        refine h.ended (by omega) nofun ?_ nofun
        rintro c ⟨⟩
        refine ⟨by omega, by omega, ?_⟩
        rw [back, ← tree]
        exact same.symm

/-! ### The report -/

/-- How all rounds over a tree ended, none if all that are allowed left things standing. -/
def rounds (i : Inspector) (format : Formatter) (limit : Nat) (t : Tree) :
    Option Ending × Progress :=
  iterate i format (allowed limit) 0 [t.source] (start t)

theorem fixAll_eq_rounds (i : Inspector) (format : Formatter) (limit : Nat) (t : Tree) :
    fixAll i format limit t =
      match rounds i format limit t with
      | (some ending, p) => ⟨ending, p⟩
      | (none, p) =>
        ⟨if fixable i p.tree = 0 then .converged (allowed limit) else .limit (fixable i p.tree),
          note p (i.findings p.tree)⟩ := rfl

theorem progress_fixAll (i : Inspector) (format : Formatter) (limit : Nat) (t : Tree) :
    (fixAll i format limit t).progress.tree = (rounds i format limit t).2.tree ∧
      (fixAll i format limit t).progress.applied = (rounds i format limit t).2.applied := by
  rw [fixAll_eq_rounds]
  rcases rounds i format limit t with ⟨_ | ending, p⟩ <;> exact ⟨rfl, rfl⟩

theorem ending_eq_converged_iff {k : Nat} : (fixAll i format limit t).ending = .converged k ↔
    (rounds i format limit t).1 = some (.converged k) ∨ (rounds i format limit t).1 = none ∧
      k = allowed limit ∧ fixable i (rounds i format limit t).2.tree = 0 := by
  rw [fixAll_eq_rounds]
  rcases rounds i format limit t with ⟨_ | ending, p⟩
  · by_cases clean : fixable i p.tree = 0 <;> simp [clean, eq_comm]
  · simp

theorem ending_eq_cycle_iff {c : Nat} : (fixAll i format limit t).ending = .cycle c ↔
    (rounds i format limit t).1 = some (.cycle c) := by
  rw [fixAll_eq_rounds]
  rcases rounds i format limit t with ⟨_ | ending, p⟩
  · by_cases clean : fixable i p.tree = 0 <;> simp [clean]
  · simp

theorem ending_eq_limit_iff {n : Nat} : (fixAll i format limit t).ending = .limit n ↔
    (rounds i format limit t).1 = some (.limit n) ∨ (rounds i format limit t).1 = none ∧
      0 < n ∧ n = fixable i (rounds i format limit t).2.tree := by
  rw [fixAll_eq_rounds]
  rcases rounds i format limit t with ⟨_ | ending, p⟩
  · by_cases clean : fixable i p.tree = 0
    · simp only [clean, if_true]
      simp
      omega
    · simp only [clean, if_false, Ending.limit.injEq]
      simp
      omega
  · simp

/-- How all rounds ended, of which there is one at least. -/
theorem exists_ran (i : Inspector) (format : Formatter) (limit : Nat) (t : Tree) :
    ∃ ran, 1 ≤ ran ∧ Ran i format t (allowed limit) ran (rounds i format limit t).1
      (rounds i format limit t).2 := by
  obtain ⟨ran, some, ended⟩ := (standing_start i format t).iterate (allowed limit)
  have one : 1 ≤ allowed limit := Nat.le_max_right limit 1
  rw [Nat.zero_add] at ended
  exact ⟨ran, by omega, ended⟩

theorem fixable_eq (i : Inspector) (t : Tree) :
    fixable i t = (i.run t).countP fun d => !d.fixes.isEmpty :=
  List.countP_eq_length_filter.symm

theorem fixable_eq_zero_iff : fixable i t = 0 ↔ ∀ d ∈ i.run t, d.fixes = [] := by
  rw [fixable_eq, List.countP_eq_zero]
  simp

/-- What the report about the rounds over a tree tells, when `ran` of them were made. -/
structure Truthful (i : Inspector) (format : Formatter) (limit : Nat) (t : Tree) (r : Report)
    (ran : Nat) : Prop where
  bounds : 1 ≤ ran ∧ ran ≤ max limit 1
  tree : r.progress.tree = after i format t ran
  applied : r.progress.applied = appliedBy i format t ran
  /-- every round but the last applied a fix -/
  busy : ∀ k, k + 1 < ran → Busy i format t k
  /-- no text was there twice before the last round -/
  fresh : ((List.range ran).map fun k => (after i format t k).source).Nodup
  /-- the last round applied nothing, or it was the last allowed and nothing is left to fix -/
  converged : ∀ k, r.ending = .converged k → k = ran ∧ (¬ Busy i format t (ran - 1) ∨
    ran = max limit 1 ∧ ∀ d ∈ i.run r.progress.tree, d.fixes = [])
  /-- the last round led to the text of `c` rounds before -/
  cycle : ∀ c, r.ending = .cycle c → 1 ≤ c ∧ c ≤ ran ∧
    r.progress.tree.source = (after i format t (ran - c)).source
  /-- all rounds allowed were made and led to new texts, and fixes are left -/
  limit : ∀ n, r.ending = .limit n → ran = max limit 1 ∧ Busy i format t (ran - 1) ∧
    (sources i format t ran).Nodup ∧ 0 < n ∧
    n = (i.run r.progress.tree).countP fun d => !d.fixes.isEmpty

/-- **The report of all rounds is truthful.** -/
theorem truthful_fixAll (i : Inspector) (format : Formatter) (limit : Nat) (t : Tree) :
    ∃ ran, Truthful i format limit t (fixAll i format limit t) ran := by
  obtain ⟨ran, one, ended⟩ := exists_ran i format limit t
  obtain ⟨tree, applied⟩ := progress_fixAll i format limit t
  refine ⟨ran, ?_⟩
  constructor
  case bounds => exact ⟨one, ended.bound⟩
  case tree => exact tree.trans ended.tree
  case applied => exact applied.trans ended.applied
  case busy => exact ended.busy
  case fresh => exact ended.fresh
  case converged =>
    intro k e
    rcases ending_eq_converged_iff.1 e with idle | ⟨all, rfl, clean⟩
    · obtain ⟨rfl, -, quiet⟩ := ended.converged k idle
      exact ⟨rfl, .inl quiet⟩
    · obtain ⟨rfl, -⟩ := ended.unended all
      exact ⟨rfl, .inr ⟨rfl, tree ▸ fixable_eq_zero_iff.1 clean⟩⟩
  case cycle =>
    intro c e
    obtain ⟨some, within, back⟩ := ended.cycle c (ending_eq_cycle_iff.1 e)
    exact ⟨some, within, by rw [tree, ended.tree, back]⟩
  case limit =>
    intro n e
    rcases ending_eq_limit_iff.1 e with never | ⟨all, some, rfl⟩
    · exact absurd never (ended.unlimited n)
    · obtain ⟨rfl, standing⟩ := ended.unended all
      exact ⟨rfl, standing.busy _ (by omega), standing.fresh, some, by rw [tree, fixable_eq]⟩

/-- A formatter that takes back the first rename. -/
example :
    let back : Formatter := fun t _ =>
      match t.replaceText 0 "@a" with
      | .ok (u, _) => ⟨u, []⟩
      | .error e => ⟨t, [e]⟩
    let t : Tree := ⟨0, "", ⟨3, .propertyBinding, .node "" 0 .attributeName (.tail "@a")
      (.node "" 2 .attributeValue (.node "" 1 .valueText (.tail "b") (.tail "")) (.tail ""))⟩, ""⟩
    (fixAll .default back 3 t).ending = .cycle 1 := by
  decide +kernel

end SyntaxLint.Rounds
