import SyntaxLint.Proofs.Json.Canonical
import SyntaxLint.Proofs.Settings.Rules
import SyntaxLint.Settings.Basic

/-!
# Proofs — Settings — what the rules allow and what is read

Settings are read of a value after the value was checked.  A value that the rules allow has levels
where levels are read and strings where strings are read.  Its round limit is an integer, but one
that is not written as an integer, or not one of 64 bits, is not read; so the rules allow some
values that give no settings.  Those that are given hold the values as they stand in the text, the
last of each key, and the defaults for keys that are not there.

* `Settings.Fits`: what the round limit has to be besides.
* `Settings.Holds`: settings and the values they hold.
* `Settings.read_ofText`: what becomes of a text.
-/

namespace SyntaxLint

open Schema (Rule)

namespace Json

theorem nat_inj {m n : Nat} : nat m = nat n ↔ m = n := by
  simp [nat]

end Json

namespace Level

variable {v : Json}

/-- A level is read and nothing of it is lost. -/
theorem exists_ofJson? (h : Rule.level.Allows v) : ∃ l, ofJson? v = some l ∧ l.toJson = v := by
  rw [← Schema.isLevel_iff] at h
  cases v with
  | bool b => exact ⟨enabled b, rfl, rfl⟩
  | string s => exact ⟨named s, rfl, rfl⟩
  | _ => cases h

end Level

namespace Settings

variable {v : Json}

/-- The value that a text has. -/
def IsValue (text : String) (v : Json) : Prop :=
  Json.read text = some v ∧ v.isSound Json.maxNesting = true

/-- The round limit is not given, or is an integer literal of 64 bits. -/
def Fits (v : Json) : Prop :=
  ∀ w, v.given? "max_fix_iterations" = some w → ∃ n < 2 ^ 64, w = .nat n

/-- Settings that hold the values that are given, and the defaults for those that are not. -/
structure Holds (v : Json) (s : Settings) : Prop where
  levels : ∀ id, (s.level? id).map Level.toJson = (v.given? "inspections").bind (·.given? id)
  ordered : s.inspections.Pairwise (·.1 < ·.1)
  exclude : Json.array (s.exclude.map .string) = (v.given? "exclude").getD (.array [])
  maxRounds : Json.nat s.maxRounds = (v.given? "max_fix_iterations").getD (.nat default.maxRounds)

/-- The rules say of the last value of a key what it is. -/
theorem allowsMember_of_given (h : Rule.settings.Allows v.canonical) {key : String} {w : Json}
    (given : v.given? key = some w) : Rule.AllowsMember Rule.members (key, w.canonical) := by
  rw [Rule.settings, Rule.Allows] at h
  obtain ⟨ms', shape, allowed⟩ := h
  cases v with
  | object ms =>
    obtain rfl : Json.canonicalMembers ms [] = ms' := by simpa [Json.canonical] using shape
    refine allowed _ (Json.mem_of_lookup ?_)
    rw [Json.lookup_canonical, given]
    rfl
  | _ => cases given

/-! ### One key after the other -/

/-- Levels that are read of members, one for each. -/
theorem exists_levels? {ms : List (String × Json)} (h : ∀ m ∈ ms, Rule.level.Allows m.2) :
    ∃ ls, levels? (.object ms) = some ls ∧ ls.map (fun m => (m.1, m.2.toJson)) = ms := by
  induction ms with
  | nil => exact ⟨[], rfl, rfl⟩
  | cons m ms ih =>
    obtain ⟨first, rest⟩ := List.forall_mem_cons.1 h
    obtain ⟨l, read, same⟩ := Level.exists_ofJson? first
    obtain ⟨ls, reads, sames⟩ := ih rest
    rw [levels?] at reads ⊢
    exact ⟨(m.1, l) :: ls, by simp [read, reads], by simp [same, sames]⟩

/-- The strings that are read of items, one for each. -/
theorem exists_strings {vs : List Json} (h : ∀ w ∈ vs, (Rule.string none).Allows w) :
    ∃ ss, vs.mapM Json.asString? = some ss ∧ ss.map .string = vs := by
  induction vs with
  | nil => exact ⟨[], rfl, rfl⟩
  | cons v vs ih =>
    obtain ⟨first, rest⟩ := List.forall_mem_cons.1 h
    rw [Rule.Allows] at first
    obtain ⟨s, rfl⟩ := first
    obtain ⟨ss, reads, sames⟩ := ih rest
    exact ⟨s :: ss, by simp [Json.asString?, reads], by simp [sames]⟩

/-- Strings are canonical. -/
theorem eq_of_canonicalItems {vs : List Json} {ss : List String}
    (h : Json.canonicalItems vs = ss.map .string) : vs = ss.map .string := by
  induction vs generalizing ss with
  | nil => simpa [Json.canonicalItems] using h
  | cons v vs ih =>
    rw [Json.canonicalItems] at h
    obtain ⟨s, ss, rfl, first, rest⟩ := List.map_eq_cons_iff.1 h.symm
    rw [List.map_cons, ih rest.symm, Json.eq_of_canonical_eq first.symm (by simp) (by simp)]

theorem lookup_map_toJson (ls : List (String × Level)) (id : String) :
    (ls.map fun m => (m.1, m.2.toJson)).lookup id = (ls.lookup id).map Level.toJson := by
  induction ls with
  | nil => rfl
  | cons m ls ih =>
    rw [List.map_cons, List.lookup_cons, List.lookup_cons]
    split <;> simp [ih]

/-- The levels that are held. -/
theorem exists_levels (h : Rule.settings.Allows v.canonical) :
    ∃ ls, Json.defaulted [] levels? ((v.given? "inspections").map Json.canonical) = some ls ∧
      ls.Pairwise (·.1 < ·.1) ∧
      ∀ id, (ls.lookup id).map Level.toJson = (v.given? "inspections").bind (·.given? id) := by
  cases given : v.given? "inspections" with
  | none => exact ⟨[], rfl, .nil, fun _ => rfl⟩
  | some w =>
    have allowed := Rule.allowsMember_inspections.1 (allowsMember_of_given h given)
    rw [Rule.Allows] at allowed
    obtain ⟨ms', shape, levels⟩ := allowed
    cases w with
    | object ms =>
      obtain rfl : Json.canonicalMembers ms [] = ms' := by simpa [Json.canonical] using shape
      obtain ⟨ls, read, same⟩ := exists_levels? levels
      refine ⟨ls, by simpa [Json.defaulted, Json.canonical] using read, ?_, fun id => ?_⟩
      · have keyed := Json.keyed_canonicalMembers ms .nil
        rwa [Json.Keyed, ← same, List.pairwise_map] at keyed
      · rw [← lookup_map_toJson, same, Json.lookup_canonical, Option.bind_some]
        cases last : (Json.object ms).given? id with
        | none => rfl
        | some x =>
          -- a level is neither an array nor an object, so it is canonical as it stands
          have kept : (Json.canonicalMembers ms []).lookup id = some x.canonical := by
            rw [Json.lookup_canonical, last]
            rfl
          have allowed : Rule.level.Allows x.canonical := levels _ (Json.mem_of_lookup kept)
          obtain ⟨l, -, level⟩ := Level.exists_ofJson? allowed
          have same : x = l.toJson := Json.eq_of_canonical_eq level.symm
            (by cases l <;> simp [Level.toJson]) (by cases l <;> simp [Level.toJson])
          rw [Option.map_some, ← level, same]
    | _ => cases shape

/-- The patterns that are held. -/
theorem exists_exclude (h : Rule.settings.Allows v.canonical) :
    ∃ ss, Json.defaulted [] (Json.asList? Json.asString?)
        ((v.given? "exclude").map Json.canonical) = some ss ∧
      Json.array (ss.map .string) = (v.given? "exclude").getD (.array []) := by
  cases given : v.given? "exclude" with
  | none => exact ⟨[], rfl, rfl⟩
  | some w =>
    have allowed := Rule.allowsMember_exclude.1 (allowsMember_of_given h given)
    rw [Rule.Allows] at allowed
    obtain ⟨vs', shape, strings⟩ := allowed
    cases w with
    | array vs =>
      obtain rfl : Json.canonicalItems vs = vs' := by simpa [Json.canonical] using shape
      obtain ⟨ss, read, same⟩ := exists_strings strings
      refine ⟨ss, by simpa [Json.defaulted, Json.canonical, Json.asList?] using read, ?_⟩
      rw [Option.getD_some, eq_of_canonicalItems same.symm]
    | _ => cases shape

/-- The round limit that is held, if it fits. -/
theorem rounds_eq_some_iff (h : Rule.settings.Allows v.canonical) {n : Nat} :
    Json.defaulted default.maxRounds (Json.asNat? (Nat.pow 2 64))
        ((v.given? "max_fix_iterations").map Json.canonical) = some n ↔
      Fits v ∧ Json.nat n = (v.given? "max_fix_iterations").getD (.nat default.maxRounds) := by
  cases given : v.given? "max_fix_iterations" with
  | none =>
    have fits : Fits v := by simp [Fits, given]
    simp only [Option.map_none, Json.defaulted, Option.some.injEq, Option.getD_none, fits, true_and,
      Json.nat_inj, eq_comm]
  | some w =>
    have allowed := Rule.allowsMember_rounds.1 (allowsMember_of_given h given)
    rw [Rule.Allows] at allowed
    obtain ⟨num, k, shape, isInt, least⟩ := allowed
    obtain rfl : w = .number num := Json.eq_of_canonical_eq shape (by simp) (by simp)
    have fits : Fits v ↔ ∃ m < 2 ^ 64, Json.number num = .nat m := by
      rw [Fits, given]
      simp only [Option.some.injEq, forall_eq']
    rw [fits, Option.map_some, Option.getD_some, shape]
    cases num with
    | double x => simp [Json.defaulted, Json.asNat?, Json.nat]
    | integer m =>
      obtain rfl : m = k := isInt
      lift m to Nat using by omega
      have read := Json.asNat?_nat (Nat.pow 2 64) m
      rw [Json.nat, Nat.pow_eq] at read
      rw [Json.defaulted, Nat.pow_eq, read, ← Json.nat]
      simp only [Json.nat_inj, Option.ite_none_right_eq_some, Option.some.injEq]
      constructor
      · rintro ⟨small, rfl⟩
        exact ⟨⟨m, small, rfl⟩, rfl⟩
      · rintro ⟨⟨_, small, rfl⟩, rfl⟩
        exact ⟨small, rfl⟩

theorem Fits.exists_nat (fits : Fits v) :
    ∃ n, Json.nat n = (v.given? "max_fix_iterations").getD (.nat default.maxRounds) := by
  cases given : v.given? "max_fix_iterations" with
  | none => exact ⟨default.maxRounds, rfl⟩
  | some w =>
    obtain ⟨n, -, rfl⟩ := fits w given
    exact ⟨n, rfl⟩

/-! ### Texts -/

/-- What is made of a value that the rules allow. -/
theorem ofJson?_canonical (h : Rule.settings.Allows v.canonical) :
    (∃ s, ofJson? v.canonical = some s ∧ Holds v s ∧ Fits v) ∨
      ofJson? v.canonical = none ∧ ¬ Fits v := by
  obtain ⟨ls, levels, ordered, level⟩ := exists_levels h
  obtain ⟨ss, strings, exclude⟩ := exists_exclude h
  have rounds := fun n => @rounds_eq_some_iff _ h n
  obtain ⟨ms, rfl⟩ : ∃ ms, v = .object ms := by
    have shape := h
    rw [Rule.settings, Rule.Allows] at shape
    obtain ⟨ms', shape, -⟩ := shape
    cases v with
    | object ms => exact ⟨ms, rfl⟩
    | _ => cases shape
  have made : ofJson? (Json.object ms).canonical =
      (Json.defaulted default.maxRounds (Json.asNat? (Nat.pow 2 64))
        (((Json.object ms).given? "max_fix_iterations").map Json.canonical)).map
          fun n => ⟨ls, ss, n⟩ := by
    rw [ofJson?, Json.fields?_canonical]
    simp only [List.map_cons, List.map_nil, Option.bind_eq_bind, Option.bind_some, levels, strings,
      Option.pure_def]
    exact Option.map_eq_bind.symm
  cases count : Json.defaulted default.maxRounds (Json.asNat? (Nat.pow 2 64))
      (((Json.object ms).given? "max_fix_iterations").map Json.canonical) with
  | none =>
    refine .inr ⟨by rw [made, count]; rfl, fun fits => ?_⟩
    obtain ⟨n, held⟩ := fits.exists_nat
    cases count.symm.trans ((rounds n).2 ⟨fits, held⟩)
  | some n =>
    obtain ⟨fits, held⟩ := (rounds n).1 count
    exact .inl ⟨⟨ls, ss, n⟩, by rw [made, count]; rfl, ⟨level, ordered, exclude, held⟩, fits⟩

theorem IsValue.unique {text : String} {v w : Json} (h : IsValue text v) (h' : IsValue text w) :
    v = w := Option.some.inj (h.1.symm.trans h'.1)

theorem ofText_of_value {text : String} (h : IsValue text v) : ofText text =
    match Schema.check v.canonical with
    | .error e => .error (.violation e)
    | .ok () =>
      match ofJson? v.canonical with
      | some s => .ok s
      | none => .error .unfit := by
  obtain ⟨read, sound⟩ := h
  rw [ofText, read]
  simp only [sound, if_true]
  rfl

theorem ofText_of_not_value {text : String} (h : ¬ ∃ v, IsValue text v) :
    ofText text = .error .notJson := by
  rw [ofText]
  cases read : Json.read text with
  | none => rfl
  | some v =>
    have unsound : v.isSound Json.maxNesting ≠ true := fun sound => h ⟨v, read, sound⟩
    simp only [if_neg unsound]
    rfl

/-- The ways of a text: it has no value, or one that the rules do not allow, or one that is read, or
one that the rules allow and whose round limit does not fit. -/
theorem ofText_cases (text : String) :
    (¬ ∃ v, IsValue text v) ∧ ofText text = .error .notJson ∨
    ∃ v, IsValue text v ∧
      (¬ Rule.settings.Allows v.canonical ∧ (∃ e, ofText text = .error (.violation e)) ∨
      Rule.settings.Allows v.canonical ∧
        (Fits v ∧ (∃ s, ofText text = .ok s ∧ Holds v s) ∨
        ¬ Fits v ∧ ofText text = .error .unfit)) := by
  by_cases value : ∃ v, IsValue text v
  case neg => exact .inl ⟨value, ofText_of_not_value value⟩
  case pos =>
  obtain ⟨v, h⟩ := value
  refine .inr ⟨v, h, ?_⟩
  rw [ofText_of_value h, ← Schema.check_eq_ok_iff]
  cases checked : Schema.check v.canonical with
  | error e => exact .inl ⟨nofun, e, rfl⟩
  | ok =>
    refine .inr ⟨rfl, ?_⟩
    rcases ofJson?_canonical (Schema.check_eq_ok_iff.1 checked) with
      ⟨s, read, holds, fits⟩ | ⟨read, unfit⟩
    · exact .inl ⟨fits, s, by simp only [read], holds⟩
    · exact .inr ⟨unfit, by simp only [read]⟩

/-- What becomes of a text: settings that hold its value, if it has one which the rules allow and
whose round limit fits. -/
structure Read (text : String) (made : Except SettingsError Settings) : Prop where
  notJson : made = .error .notJson ↔ ¬ ∃ v, IsValue text v
  violation : (∃ e, made = .error (.violation e)) ↔
    ∃ v, IsValue text v ∧ ¬ Rule.settings.Allows v.canonical
  unfit : made = .error .unfit ↔
    ∃ v, IsValue text v ∧ Rule.settings.Allows v.canonical ∧ ¬ Fits v
  ok : (∃ s, made = .ok s) ↔
    ∃ v, IsValue text v ∧ Rule.settings.Allows v.canonical ∧ Fits v
  holds : ∀ v s, IsValue text v → made = .ok s → Holds v s

/-- **What becomes of a text.** -/
theorem read_ofText (text : String) : Read text (ofText text) := by
  have here : ∀ {v : Json} {P : Json → Prop}, IsValue text v →
      ((∃ w, IsValue text w ∧ P w) ↔ P v) :=
    fun h => ⟨fun ⟨w, h', p⟩ => h.unique h' ▸ p, fun p => ⟨_, h, p⟩⟩
  rcases ofText_cases text with ⟨none, made⟩ | ⟨v, h, ⟨refused, e, made⟩ | ⟨allowed, way⟩⟩
  case inl =>
    have none' : ∀ {P : Json → Prop}, ¬ ∃ v, IsValue text v ∧ P v :=
      fun ⟨v, h, _⟩ => none ⟨v, h⟩
    rw [made]
    constructor
    case notJson => exact iff_of_true rfl none
    case violation => exact iff_of_false nofun none'
    case unfit => exact iff_of_false nofun none'
    case ok => exact iff_of_false nofun none'
    case holds => exact nofun
  case inr.inl =>
    rw [made]
    constructor
    case notJson => exact iff_of_false nofun (not_not_intro ⟨v, h⟩)
    case violation => exact iff_of_true ⟨e, rfl⟩ ((here h).2 refused)
    case unfit => exact iff_of_false nofun fun p => refused ((here h).1 p).1
    case ok => exact iff_of_false nofun fun p => refused ((here h).1 p).1
    case holds => exact nofun
  case inr.inr =>
    rcases way with ⟨fits, s, made, holds⟩ | ⟨unfit, made⟩
    case inl =>
      rw [made]
      constructor
      case notJson => exact iff_of_false nofun (not_not_intro ⟨v, h⟩)
      case violation => exact iff_of_false nofun fun p => (here h).1 p allowed
      case unfit => exact iff_of_false nofun fun p => ((here h).1 p).2 fits
      case ok => exact iff_of_true ⟨s, rfl⟩ ((here h).2 ⟨allowed, fits⟩)
      case holds =>
        rintro w _ h' ⟨⟩
        exact h.unique h' ▸ holds
    case inr =>
      rw [made]
      constructor
      case notJson => exact iff_of_false nofun (not_not_intro ⟨v, h⟩)
      case violation => exact iff_of_false nofun fun p => (here h).1 p allowed
      case unfit => exact iff_of_true rfl ((here h).2 ⟨allowed, unfit⟩)
      case ok => exact iff_of_false nofun fun p => unfit ((here h).1 p).2
      case holds => exact nofun

/-- A round limit that is written with a fraction, though it has none. -/
def fractional : String := "\x7b\"max_fix_iterations\": 2.0\x7d"

/-- The rules allow it, and it gives no settings. -/
theorem unfit_of_fractional : ∃ v, IsValue fractional v ∧ Rule.settings.Allows v.canonical ∧
    ofText fractional = .error .unfit := by
  have value : (Json.read fractional).any (fun v =>
      v.isSound Json.maxNesting && (Schema.check v.canonical).isOk) = true := by decide +kernel
  have unread : (ofText fractional).isOk = false := by decide +kernel
  obtain ⟨v, read, checked⟩ := (Option.any_eq_true _ _).1 value
  rw [Bool.and_eq_true] at checked
  have isValue : IsValue fractional v := ⟨read, checked.1⟩
  rcases ofText_cases fractional with ⟨none, -⟩ | ⟨w, h, way⟩
  case inl => exact absurd ⟨v, isValue⟩ none
  case inr =>
  obtain rfl := h.unique isValue
  rcases way with ⟨refused, -⟩ | ⟨allowed, ⟨-, s, made, -⟩ | ⟨-, made⟩⟩
  · rw [← Schema.check_eq_ok_iff] at refused
    cases found : Schema.check w.canonical with
    | error e => simp [found, Except.isOk, Except.toBool] at checked
    | ok => exact absurd found refused
  · rw [made] at unread
    cases unread
  · exact ⟨w, h, allowed, made⟩

end Settings

end SyntaxLint
