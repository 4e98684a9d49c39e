import Mathlib.Algebra.Order.Ring.Int
import Mathlib.Tactic.Ring
import SyntaxLint.Settings.Schema

/-!
# Proofs — Settings — the rules of the schema

A schema is a rule for values: what kind of value is wanted, and what is wanted of the values in
it.  The one for settings is such a rule, and its check finds no violation just in the values that
the rule allows.

* `Rule.Allows`: what a rule allows.
* `Rule.settings`: the rule for settings.
* `Schema.check_eq_ok_iff`: what the check lets through.
-/

namespace SyntaxLint.Schema

open Json (Number Magnitude)

/-- What a value has to be. -/
inductive Rule where
  | boolean
  /-- a string, and one of the names if there are any -/
  | string (names : Option (List String))
  /-- a number without a fraction, the least one at least -/
  | integer (least : Int)
  | array (items : Rule)
  /-- an object with any keys, all values of which are as wanted -/
  | map (values : Rule)
  /-- an object with some of the keys and no others -/
  | record (keys : List (String × Rule))
  /-- exactly one of two -/
  | oneOf (first second : Rule)

/-- Whether a number is the integer `k`. -/
def IsInt (k : Int) : Number → Prop
  | .integer n => n = k
  | .double x =>
    k * (x.magnitude.ratio.2 : Int) =
      if x.negative then -(x.magnitude.ratio.1 : Int) else x.magnitude.ratio.1

namespace Rule

mutual

/-- What a rule allows. -/
def Allows : Rule → Json → Prop
  | boolean, v => ∃ b, v = .bool b
  | string none, v => ∃ s, v = .string s
  | string (some names), v => ∃ s ∈ names, v = .string s
  | integer least, v => ∃ n k, v = .number n ∧ IsInt k n ∧ least ≤ k
  | array items, v => ∃ vs, v = .array vs ∧ ∀ w ∈ vs, items.Allows w
  | map values, v => ∃ ms, v = .object ms ∧ ∀ m ∈ ms, values.Allows m.2
  | record keys, v => ∃ ms, v = .object ms ∧ ∀ m ∈ ms, AllowsMember keys m
  | oneOf first second, v =>
    first.Allows v ∧ ¬ second.Allows v ∨ ¬ first.Allows v ∧ second.Allows v

/-- What the rules for some keys allow a member to be. -/
def AllowsMember : List (String × Rule) → String × Json → Prop
  | [], _ => False
  | (key, rule) :: keys, m => if m.1 = key then rule.Allows m.2 else AllowsMember keys m

end

/-- A level: a boolean, or one of the names. -/
def level : Rule := oneOf boolean (string (some levels))

/-- The keys that settings may have. -/
def members : List (String × Rule) := [
  ("$schema", string none),
  ("inspections", map level),
  ("exclude", array (string none)),
  ("max_fix_iterations", integer 1)]

/-- The rule for settings. -/
def settings : Rule := record members

theorem allowsMember_inspections {v : Json} :
    AllowsMember members ("inspections", v) ↔ (map level).Allows v := by
  simp [members, AllowsMember]

theorem allowsMember_exclude {v : Json} :
    AllowsMember members ("exclude", v) ↔ (array (string none)).Allows v := by
  simp [members, AllowsMember]

theorem allowsMember_rounds {v : Json} :
    AllowsMember members ("max_fix_iterations", v) ↔ (integer 1).Allows v := by
  simp [members, AllowsMember]

end Rule

variable {v : Json} {path : List String}

/-! ### Values -/

theorem isLevel_iff : isLevel v = true ↔ Rule.level.Allows v := by
  cases v <;> simp [isLevel, Rule.level, Rule.Allows]

theorem checkLevels_eq_ok_iff {ms : List (String × Json)} :
    checkLevels path ms = .ok () ↔ ∀ m ∈ ms, Rule.level.Allows m.2 := by
  induction ms with
  | nil => simp [checkLevels]
  | cons m ms ih =>
    rw [checkLevels, List.forall_mem_cons, ← ih, ← isLevel_iff]
    split <;> simp_all

theorem checkString_eq_ok_iff :
    checkString path v = .ok () ↔ (Rule.string none).Allows v := by
  cases v <;> simp [checkString, Rule.Allows]

theorem checkStrings_eq_ok_iff {index : Nat} {vs : List Json} :
    checkStrings path index vs = .ok () ↔ ∀ w ∈ vs, (Rule.string none).Allows w := by
  induction vs generalizing index with
  | nil => simp [checkStrings]
  | cons v vs ih =>
    rw [checkStrings, List.forall_mem_cons, ← @ih (index + 1),
      ← @checkString_eq_ok_iff _ (path ++ [toString index])]
    cases checkString (path ++ [toString index]) v <;> simp [bind, Except.bind]

/-! ### Numbers -/

theorem ratio_pos (x : Magnitude) : 0 < x.ratio.2 := Nat.pow_pos (by decide)

theorem ratio_eq_zero_iff (x : Magnitude) : x.ratio.1 = 0 ↔ x.mantissa = 0 := by
  have power : 0 < (Magnitude.power x.exponent).1 := Nat.pow_pos (by decide)
  simp [Magnitude.ratio, Nat.ne_of_gt power]

/-- A number is an integer from 1 on if it has no fraction and is not less than 1. -/
theorem exists_isInt_iff {n : Number} : (∃ k, IsInt k n ∧ 1 ≤ k) ↔
    isInteger (.number n) = true ∧ isBelowOne (.number n) = false := by
  cases n with
  | integer n => simp [IsInt, isInteger, isBelowOne]
  | double x =>
    have divides := ratio_pos x.magnitude
    have zero := ratio_eq_zero_iff x.magnitude
    simp only [IsInt, isInteger, isBelowOne, Json.Double.isWhole, Magnitude.isWhole,
      beq_iff_eq, Bool.or_eq_false_iff, beq_eq_false_iff_ne, ne_eq, ← zero]
    generalize x.magnitude.ratio.1 = num, x.magnitude.ratio.2 = den at *
    cases x.negative with
    | true =>
      have negative : ∀ k : Int, k * den = -(num : Int) → ¬ 1 ≤ k := by
        intro k same pos
        have product : 0 < k * (den : Int) := Int.mul_pos (by omega) (by omega)
        omega
      simpa using negative
    | false =>
      simp only [Bool.false_eq_true, if_false, true_and]
      constructor
      · rintro ⟨k, same, pos⟩
        lift k to Nat using by omega
        norm_cast at same pos
        subst same
        exact ⟨Nat.mul_mod_left k den, Nat.mul_ne_zero (by omega) (Nat.ne_of_gt divides)⟩
      · rintro ⟨whole, ne⟩
        have same : num / den * den = num := Nat.div_mul_cancel (Nat.dvd_of_mod_eq_zero whole)
        refine ⟨(num / den : Nat), by exact_mod_cast same, ?_⟩
        have pos : num / den ≠ 0 := fun none => ne (by rw [← same, none, Nat.zero_mul])
        exact_mod_cast Nat.pos_of_ne_zero pos

theorem checkCount_eq_ok_iff : checkCount path v = .ok () ↔ (Rule.integer 1).Allows v := by
  cases v with
  | number n =>
    have allowed : (Rule.integer 1).Allows (.number n) ↔ ∃ k, IsInt k n ∧ 1 ≤ k := by
      simp [Rule.Allows]
    rw [allowed, exists_isInt_iff, checkCount]
    cases isInteger (.number n) <;> cases isBelowOne (.number n) <;> simp
  | _ => simp [checkCount, isInteger, Rule.Allows]

/-! ### Members -/

theorem checkMember_eq_ok_iff {key : String} :
    checkMember key v = .ok () ↔ Rule.AllowsMember Rule.members (key, v) := by
  fun_cases checkMember key v with
  | case1 v => simp [checkString_eq_ok_iff, Rule.members, Rule.AllowsMember]
  | case2 ms => simp [checkLevels_eq_ok_iff, Rule.allowsMember_inspections, Rule.Allows]
  | case3 v other =>
    simp only [reduceCtorEq, Rule.allowsMember_inspections, Rule.Allows, false_iff]
    rintro ⟨ms, rfl, -⟩
    exact other ms rfl
  | case4 vs => simp [checkStrings_eq_ok_iff, Rule.allowsMember_exclude, Rule.Allows]
  | case5 v other =>
    simp only [reduceCtorEq, Rule.allowsMember_exclude, Rule.Allows, false_iff]
    rintro ⟨vs, rfl, -⟩
    exact other vs rfl
  | case6 v => rw [checkCount_eq_ok_iff, Rule.allowsMember_rounds]
  | case7 key v schema inspections exclude rounds =>
    simp only [reduceCtorEq, Rule.members, Rule.AllowsMember, if_neg schema, if_neg inspections,
      if_neg exclude, if_neg rounds]

theorem checkMembers_eq_ok_iff {ms : List (String × Json)} :
    checkMembers ms = .ok () ↔ ∀ m ∈ ms, Rule.AllowsMember Rule.members m := by
  induction ms with
  | nil => simp [checkMembers]
  | cons m ms ih =>
    obtain ⟨key, v⟩ := m
    rw [checkMembers, List.forall_mem_cons, ← ih, ← checkMember_eq_ok_iff]
    cases checkMember key v <;> simp [bind, Except.bind]

/-- **What the check lets through** is what the rule for settings allows. -/
theorem check_eq_ok_iff : check v = .ok () ↔ Rule.settings.Allows v := by
  cases v with
  | object ms =>
    rw [check, checkMembers_eq_ok_iff]
    simp [Rule.settings, Rule.Allows]
  | _ => simp [check, Rule.settings, Rule.Allows]

end SyntaxLint.Schema
