import SyntaxLint.Lint.Encoding
import SyntaxLint.Proofs.Tree.Stored

/-!
# Proofs — Linting — stored diagnostics

A diagnostic on its own is written with its fields in order, and in a report with its keys sorted.
Either way it is read again, since the fields of a record are found by their names and those that
are left out have the value they are read with.  What is read fits the words it is stored in, so it
can be written again and nothing of it is lost.

* `Diagnostic.Fits`: the diagnostics that are read again.
* `Diagnostic.ofJson?_of_fields`, `Diagnostic.fits_of_ofJson?`: what a diagnostic is read from, and
  what is read.
* `Diagnostic.rereads`: writing and reading.
-/

namespace SyntaxLint

/-! ### Words -/

theorem Json.asWord?_nat {n : Nat} (h : n < 2 ^ 32) : (nat n).asWord? = some n := by
  rw [asWord?, asNat?_nat]
  exact if_pos h

theorem Json.required_asWord? {n : Nat} (h : n < 2 ^ 32) :
    required asWord? (some (nat n)) = some n := by
  rw [required, Option.bind_some, asWord?_nat h]

/-- A position whose numbers fit 32 bits. -/
structure Position.Words (p : Position) : Prop where
  line : p.line < 2 ^ 32
  column : p.column < 2 ^ 32

structure Location.Words (l : Location) : Prop where
  start : l.start.Words
  stop : l.stop.Words

/-- An anchor whose tree fits 64 bits, and whose nodes and places fit 32. -/
structure Anchor.Fits (a : Anchor) : Prop where
  tree : a.tree < 2 ^ 64
  node : a.node < 2 ^ 32
  span : a.span.Words
  target : ∀ id, a.target = some id → id < 2 ^ 32

/-- A diagnostic whose numbers fit the words they are stored in. -/
structure Diagnostic.Fits (d : Diagnostic) : Prop where
  anchor : d.anchor.Fits
  location : ∀ l, d.location = some l → l.Words

variable {v : Json} {b : Nat} {listed : Bool}

/-- A record of two fields is read from a value that has both. -/
theorem Json.bind_fields?_eq_some_iff {α β γ : Type} {names : List String}
    {f : Option Json → Option α} {g : Option Json → Option β} {make : α → β → γ} {made : γ} :
    ((v.fields? names).bind fun fields => match fields.values with
      | [x, y] => (f x).bind fun first => (g y).bind fun last => some (make first last)
      | _ => none) = some made ↔
    ∃ listed x y first last, v.fields? names = some ⟨listed, [x, y]⟩ ∧ f x = some first ∧
      g y = some last ∧ make first last = made := by
  constructor
  · intro h
    obtain ⟨⟨listed, values⟩, given, h⟩ := Option.bind_eq_some_iff.1 h
    obtain _ | ⟨x, _ | ⟨y, _ | ⟨z, more⟩⟩⟩ := values
    case cons.cons.nil =>
      obtain ⟨first, hf, h⟩ := Option.bind_eq_some_iff.1 h
      obtain ⟨last, hg, h⟩ := Option.bind_eq_some_iff.1 h
      exact ⟨listed, x, y, first, last, given, hf, hg, Option.some.inj h⟩
    all_goals cases h
  · rintro ⟨listed, x, y, first, last, given, hf, hg, rfl⟩
    rw [given, Option.bind_some]
    exact Option.bind_eq_some_iff.2 ⟨_, hf, Option.bind_eq_some_iff.2 ⟨_, hg, rfl⟩⟩

/-! ### What is written is read -/

theorem Span.ofJson?_of_fields {s : Span} (words : s.Words)
    (h : v.fields? ["start", "end"] = some ⟨listed, [some (.nat s.start), some (.nat s.stop)]⟩)
    (b : Nat) : Span.ofJson? (b + 1) v = some s :=
  Json.bind_fields?_eq_some_iff.2 ⟨_, _, _, _, _, h, Json.required_asWord? words.start,
    Json.required_asWord? words.stop, rfl⟩

theorem Position.ofJson?_of_fields {p : Position} (words : p.Words)
    (h : v.fields? ["line", "column"] =
      some ⟨listed, [some (.nat p.line), some (.nat p.column)]⟩) (b : Nat) :
    Position.ofJson? (b + 1) v = some p :=
  Json.bind_fields?_eq_some_iff.2 ⟨_, _, _, _, _, h, Json.required_asWord? words.line,
    Json.required_asWord? words.column, rfl⟩

theorem Location.ofJson?_of_fields {l : Location} {start stop : Json}
    (h : v.fields? ["start", "end"] = some ⟨listed, [some start, some stop]⟩)
    (first : Position.ofJson? b start = some l.start)
    (last : Position.ofJson? b stop = some l.stop) : Location.ofJson? (b + 1) v = some l :=
  Json.bind_fields?_eq_some_iff.2 ⟨_, _, _, _, _, h, first, last, rfl⟩

theorem Fix.ofJson?_toJson (f : Fix) (b : Nat) : Fix.ofJson? (b + 1) f.toJson = some f := by
  cases f <;> rfl

theorem Severity.ofJson?_toJson (s : Severity) (b : Nat) :
    Severity.ofJson? b s.toJson = some s := by
  cases s <;> rfl

theorem Anchor.ofJson?_of_fields {a : Anchor} {span : Json} (fits : a.Fits)
    (h : v.fields? ["tree", "node", "kind", "span", "target"] = some ⟨false, [some (.nat a.tree),
      some (.nat a.node), some a.kind.toJson, some span, a.target.map Json.nat]⟩)
    (read : Span.ofJson? b span = some a.span) : Anchor.ofJson? (b + 1) v = some a := by
  have identity : Json.required (Json.asNat? (Nat.pow 2 64)) (some (.nat a.tree)) =
      some a.tree := by
    rw [Json.required, Option.bind_some, Json.asNat?_nat]
    exact if_pos fits.tree
  have kind : Json.required (Kind.ofJson? b) (some a.kind.toJson) = some a.kind := by
    rw [Json.required, Option.bind_some, Outline.ofJson?_toJson]
  have range : Json.required (Span.ofJson? b) (some span) = some a.span := by
    rw [Json.required, Option.bind_some, read]
  have changed : Json.optional false Json.asWord? (a.target.map Json.nat) = some a.target := by
    cases goal : a.target with
    | none => rfl
    | some id =>
      have word := Json.asWord?_nat (fits.target id goal)
      rw [Option.map_some, Json.optional, word, Option.map_some]
      simp [Json.nat]
  rw [Anchor.ofJson?, h]
  refine Option.bind_eq_some_iff.2 ⟨_, rfl, ?_⟩
  refine Option.bind_eq_some_iff.2 ⟨_, identity, ?_⟩
  refine Option.bind_eq_some_iff.2 ⟨_, Json.required_asWord? fits.node, ?_⟩
  refine Option.bind_eq_some_iff.2 ⟨_, kind, ?_⟩
  refine Option.bind_eq_some_iff.2 ⟨_, range, ?_⟩
  exact Option.bind_eq_some_iff.2 ⟨_, changed, rfl⟩

theorem Diagnostic.fixes?_fixesField (d : Diagnostic) (b : Nat) :
    Json.defaulted [] (fixes? (b + 2)) d.fixesField = some d.fixes := by
  have read : ∀ fixes : List Fix, (fixes.map Fix.toJson).mapM (Fix.ofJson? (b + 1)) =
      some fixes := fun fixes => by
    induction fixes with
    | nil => rfl
    | cons f fixes ih => rw [List.map_cons, List.mapM_cons, Fix.ofJson?_toJson, ih]; rfl
  rw [fixesField]
  cases fixes : d.fixes with
  | nil => rfl
  | cons f more => exact read (f :: more)

theorem Diagnostic.ofJson?_of_fields {d : Diagnostic} {anchor : Json} {location : Option Json}
    (h : v.fields? ["inspection_id", "message", "severity", "anchor", "loc", "fixes"] =
      some ⟨false, [some (.string d.inspection), some (.string d.message),
        some d.severity.toJson, some anchor, location, d.fixesField]⟩)
    (anchored : Anchor.ofJson? (b + 2) anchor = some d.anchor)
    (located : Json.optional false (Location.ofJson? (b + 2)) location = some d.location) :
    ofJson? (b + 3) v = some d := by
  have severity : Json.defaulted .error (Severity.ofJson? (b + 2)) (some d.severity.toJson) =
      some d.severity := d.severity.ofJson?_toJson _
  rw [ofJson?, h]
  refine Option.bind_eq_some_iff.2 ⟨_, rfl, ?_⟩
  refine Option.bind_eq_some_iff.2 ⟨_, rfl, ?_⟩
  refine Option.bind_eq_some_iff.2 ⟨_, rfl, ?_⟩
  refine Option.bind_eq_some_iff.2 ⟨_, severity, ?_⟩
  refine Option.bind_eq_some_iff.2 ⟨_, anchored, ?_⟩
  refine Option.bind_eq_some_iff.2 ⟨_, located, ?_⟩
  exact Option.bind_eq_some_iff.2 ⟨_, d.fixes?_fixesField b, rfl⟩

/-! ### Both ways of writing -/

theorem Span.Words.ofJson?_record {s : Span} (h : s.Words) (b : Nat) :
    Span.ofJson? (b + 1) s.record = some s :=
  ofJson?_of_fields h rfl b

theorem Span.Words.ofJson?_toJson {s : Span} (h : s.Words) (b : Nat) :
    Span.ofJson? (b + 1) s.toJson = some s :=
  ofJson?_of_fields h rfl b

theorem Location.Words.ofJson?_record {l : Location} (h : l.Words) (b : Nat) :
    Location.ofJson? (b + 2) l.record = some l :=
  ofJson?_of_fields rfl (Position.ofJson?_of_fields h.start rfl b)
    (Position.ofJson?_of_fields h.stop rfl b)

theorem Location.Words.ofJson?_toJson {l : Location} (h : l.Words) (b : Nat) :
    Location.ofJson? (b + 2) l.toJson = some l :=
  ofJson?_of_fields rfl (Position.ofJson?_of_fields h.start rfl b)
    (Position.ofJson?_of_fields h.stop rfl b)

theorem Anchor.Fits.ofJson?_record {a : Anchor} (h : a.Fits) (b : Nat) :
    Anchor.ofJson? (b + 2) a.record = some a := by
  refine ofJson?_of_fields h ?_ (h.span.ofJson?_record b)
  rw [record]
  cases a.target <;> rfl

theorem Anchor.Fits.ofJson?_toJson {a : Anchor} (h : a.Fits) (b : Nat) :
    Anchor.ofJson? (b + 2) a.toJson = some a := by
  refine ofJson?_of_fields h ?_ (h.span.ofJson?_toJson b)
  rw [toJson, toJsonWith]
  cases a.target <;> rfl

namespace Diagnostic

variable {d : Diagnostic}

theorem Fits.optional {write : Location → Json} (h : d.Fits)
    (read : ∀ l : Location, l.Words → Location.ofJson? (b + 2) (write l) = some l)
    (shown : ∀ l, write l ≠ .null) :
    Json.optional false (Location.ofJson? (b + 2)) (d.location.map write) = some d.location := by
  cases loc : d.location with
  | none => rfl
  | some l =>
    rw [Option.map_some, Json.optional, read l (h.location l loc), Option.map_some]
    exact shown l

/-- **A diagnostic is read from its fields in order.** -/
theorem Fits.ofJson?_record (h : d.Fits) (b : Nat) : ofJson? (b + 3) d.record = some d := by
  refine ofJson?_of_fields ?_ (h.anchor.ofJson?_record b)
    (h.optional (fun l words => words.ofJson?_record b) (by simp [Location.record]))
  rw [record]
  cases d.location <;> cases d.fixesField <;> rfl

/-- **A diagnostic is read from its sorted keys.** -/
theorem Fits.ofJson?_toJson (h : d.Fits) (b : Nat) : ofJson? (b + 3) d.toJson = some d := by
  refine ofJson?_of_fields ?_ (h.anchor.ofJson?_toJson b)
    (h.optional (fun l words => words.ofJson?_toJson b) (by simp [Location.toJson]))
  rw [toJson, toJsonWith, fixesField]
  cases d.location <;> cases d.fixes <;> rfl

end Diagnostic

/-! ### Texts -/

namespace Json

theorem membersPlain_append {ms ns : List (String × Json)} :
    MembersPlain (ms ++ ns) ↔ MembersPlain ms ∧ MembersPlain ns := by
  induction ms with
  | nil => simp [MembersPlain]
  | cons m ms ih => simp [MembersPlain, ih, and_assoc]

theorem membersPlain_memberOf {α : Type} {key : String} {write : α → Json} {field : Option α}
    (h : ∀ a, field = some a → (write a).Plain) : MembersPlain (memberOf key write field) := by
  cases field with
  | none => trivial
  | some a => exact ⟨h a rfl, trivial⟩

theorem plain_nat {n : Nat} (h : n < 2 ^ 64) : (nat n).Plain := Number.exact_nat h

end Json

theorem Location.Words.plain {l : Location} (h : l.Words) : l.record.Plain ∧ l.toJson.Plain := by
  have word : ∀ {n : Nat}, n < 2 ^ 32 → (Json.nat n).Plain := fun h => Json.plain_nat (by omega)
  obtain ⟨⟨line, column⟩, ⟨line', column'⟩⟩ := h
  have line := word line
  have column := word column
  have line' := word line'
  have column' := word column'
  exact ⟨⟨⟨line, column, trivial⟩, ⟨line', column', trivial⟩, trivial⟩,
    ⟨⟨column', line', trivial⟩, ⟨column, line, trivial⟩, trivial⟩⟩

theorem Anchor.Fits.plain {a : Anchor} (h : a.Fits) : a.record.Plain ∧ a.toJson.Plain := by
  have word : ∀ {n : Nat}, n < 2 ^ 32 → (Json.nat n).Plain := fun h => Json.plain_nat (by omega)
  have start := word h.span.start
  have stop := word h.span.stop
  have goal : Json.MembersPlain (memberOf "target" Json.nat a.target) :=
    Json.membersPlain_memberOf fun id found => word (h.target id found)
  constructor
  · refine Json.membersPlain_append.2 ⟨?_, goal⟩
    exact ⟨Json.plain_nat h.tree, word h.node, trivial, ⟨start, stop, trivial⟩, trivial⟩
  · refine Json.membersPlain_append.2 ⟨Json.membersPlain_append.2 ⟨?_, goal⟩, ?_⟩
    · exact ⟨trivial, word h.node, ⟨stop, start, trivial⟩, trivial⟩
    · exact ⟨Json.plain_nat h.tree, trivial⟩

namespace Diagnostic

variable {d : Diagnostic}

theorem plain_fixes (fixes : List Fix) : Json.ArePlain (fixes.map Fix.toJson) := by
  induction fixes with
  | nil => trivial
  | cons f fixes ih =>
    refine ⟨?_, ih⟩
    cases f with
    | rename trigger => exact ⟨trivial, trivial, trivial⟩
    | removeValue => exact ⟨trivial, trivial⟩

theorem Fits.plain_record (h : d.Fits) : d.record.Plain := by
  refine Json.membersPlain_append.2 ⟨Json.membersPlain_append.2 ⟨?_, ?_⟩, ?_⟩
  · exact ⟨trivial, trivial, trivial, h.anchor.plain.1, trivial⟩
  · exact Json.membersPlain_memberOf fun l found => (h.location l found).plain.1
  · refine Json.membersPlain_memberOf fun v found => ?_
    obtain ⟨-, rfl⟩ := (Option.ite_none_left_eq_some.1 found).imp_right Option.some.inj
    exact plain_fixes d.fixes

theorem Fits.plain_toJson (h : d.Fits) : d.toJson.Plain := by
  refine Json.membersPlain_append.2 ⟨Json.membersPlain_append.2 ⟨Json.membersPlain_append.2
    ⟨Json.membersPlain_append.2 ⟨?_, ?_⟩, ?_⟩, ?_⟩, ?_⟩
  · exact ⟨h.anchor.plain.2, trivial⟩
  · exact Json.membersPlain_memberOf fun fixes _ => plain_fixes fixes
  · exact ⟨trivial, trivial⟩
  · exact Json.membersPlain_memberOf fun l found => (h.location l found).plain.2
  · exact ⟨trivial, trivial, trivial⟩

/-- **Each text of a diagnostic is read as the diagnostic.** -/
theorem Fits.ofText? (h : d.Fits) {text : String} (written : text ∈ d.texts) :
    Diagnostic.ofText? text = some d := by
  have pretty : ∀ {v : Json}, v.Plain → Json.read v.pretty = some v := fun {v} plain => by
    have h := Json.read_pretty_append plain (List.forall_mem_nil _)
    rwa [String.ofList_nil, String.append_empty] at h
  simp only [texts, List.mem_cons, List.not_mem_nil, or_false] at written
  rw [Diagnostic.ofText?]
  rcases written with rfl | rfl | rfl | rfl
  · rw [Json.read_compact h.plain_record, Option.bind_some]
    exact h.ofJson?_record 124
  · rw [pretty h.plain_record, Option.bind_some]
    exact h.ofJson?_record 124
  · rw [Json.read_compact h.plain_toJson, Option.bind_some]
    exact h.ofJson?_toJson 124
  · rw [pretty h.plain_toJson, Option.bind_some]
    exact h.ofJson?_toJson 124

end Diagnostic

/-! ### What is read fits -/

theorem Json.lt_of_required {field : Option Json} {n : Nat} (h : required asWord? field = some n) :
    n < 2 ^ 32 := by
  obtain ⟨v, -, read⟩ := Option.bind_eq_some_iff.1 h
  exact lt_of_asNat? read

theorem Span.words_of_ofJson? {s : Span} (h : Span.ofJson? b v = some s) : s.Words := by
  cases b with
  | zero => cases h
  | succ b =>
    obtain ⟨_, _, _, _, _, -, first, last, rfl⟩ := Json.bind_fields?_eq_some_iff.1 h
    exact ⟨Json.lt_of_required first, Json.lt_of_required last⟩

theorem Position.words_of_ofJson? {p : Position} (h : Position.ofJson? b v = some p) :
    p.Words := by
  cases b with
  | zero => cases h
  | succ b =>
    obtain ⟨_, _, _, _, _, -, first, last, rfl⟩ := Json.bind_fields?_eq_some_iff.1 h
    exact ⟨Json.lt_of_required first, Json.lt_of_required last⟩

theorem Location.words_of_ofJson? {l : Location} (h : Location.ofJson? b v = some l) :
    l.Words := by
  cases b with
  | zero => cases h
  | succ b =>
    obtain ⟨_, _, _, _, _, -, first, last, rfl⟩ := Json.bind_fields?_eq_some_iff.1 h
    obtain ⟨_, -, first⟩ := Option.bind_eq_some_iff.1 first
    obtain ⟨_, -, last⟩ := Option.bind_eq_some_iff.1 last
    exact ⟨Position.words_of_ofJson? first, Position.words_of_ofJson? last⟩

/-- A field that may be missing has been read, if there is one. -/
theorem Json.exists_of_optional {α : Type} {decode : Json → Option α} {field : Option Json} {a : α}
    (h : optional listed decode field = some (some a)) : ∃ v, decode v = some a := by
  unfold optional at h
  split at h
  case h_1 =>
    split at h <;> cases h
  case h_2 => cases h
  case h_3 v _ =>
    obtain ⟨a', read, same⟩ := Option.map_eq_some_iff.1 h
    cases same
    exact ⟨v, read⟩

theorem Anchor.fits_of_ofJson? {a : Anchor} (h : Anchor.ofJson? b v = some a) : a.Fits := by
  cases b with
  | zero => cases h
  | succ b =>
    obtain ⟨fields, -, h⟩ := Option.bind_eq_some_iff.1 h
    split at h
    case h_2 => cases h
    case h_1 =>
      obtain ⟨tree, identity, h⟩ := Option.bind_eq_some_iff.1 h
      obtain ⟨node, word, h⟩ := Option.bind_eq_some_iff.1 h
      obtain ⟨kind, -, h⟩ := Option.bind_eq_some_iff.1 h
      obtain ⟨span, range, h⟩ := Option.bind_eq_some_iff.1 h
      obtain ⟨target, goal, h⟩ := Option.bind_eq_some_iff.1 h
      cases h
      obtain ⟨_, -, identity⟩ := Option.bind_eq_some_iff.1 identity
      obtain ⟨_, -, range⟩ := Option.bind_eq_some_iff.1 range
      refine ⟨Json.lt_of_asNat? identity, Json.lt_of_required word,
        Span.words_of_ofJson? range, fun id found => ?_⟩
      obtain rfl : target = some id := found
      obtain ⟨_, read⟩ := Json.exists_of_optional goal
      exact Json.lt_of_asNat? read

namespace Diagnostic

variable {d : Diagnostic}

/-- **What is read fits**, however it was written. -/
theorem fits_of_ofJson? (h : ofJson? b v = some d) : d.Fits := by
  cases b with
  | zero => cases h
  | succ b =>
    obtain ⟨fields, -, h⟩ := Option.bind_eq_some_iff.1 h
    split at h
    case h_2 => cases h
    case h_1 =>
      obtain ⟨inspection, -, h⟩ := Option.bind_eq_some_iff.1 h
      obtain ⟨message, -, h⟩ := Option.bind_eq_some_iff.1 h
      obtain ⟨severity, -, h⟩ := Option.bind_eq_some_iff.1 h
      obtain ⟨anchor, anchored, h⟩ := Option.bind_eq_some_iff.1 h
      obtain ⟨location, located, h⟩ := Option.bind_eq_some_iff.1 h
      obtain ⟨fixes, -, h⟩ := Option.bind_eq_some_iff.1 h
      cases h
      obtain ⟨_, -, anchored⟩ := Option.bind_eq_some_iff.1 anchored
      refine ⟨Anchor.fits_of_ofJson? anchored, fun l found => ?_⟩
      obtain rfl : location = some l := found
      obtain ⟨_, read⟩ := Json.exists_of_optional located
      exact Location.words_of_ofJson? read

theorem fits_of_ofText? {text : String} (h : ofText? text = some d) : d.Fits := by
  obtain ⟨v, -, read⟩ := Option.bind_eq_some_iff.1 h
  exact fits_of_ofJson? read

end Diagnostic

/-! ### Sorted keys -/

theorem Span.canonical_record (s : Span) : s.record.canonical = s.toJson := by
  simp only [record, toJson, Json.canonical, Json.canonicalMembers, Json.insertMember, Json.nat,
    String.reduceLT, ↓reduceIte]

theorem Location.canonical_record (l : Location) : l.record.canonical = l.toJson := by
  simp only [record, Position.record, toJson, Position.toJson, Json.canonical,
    Json.canonicalMembers, Json.insertMember, Json.nat, String.reduceLT, ↓reduceIte]

theorem Anchor.canonical_record (a : Anchor) : a.record.canonical = a.toJson := by
  rw [record, toJson, toJsonWith]
  cases a.target <;> simp only [memberOf, List.append_nil, List.cons_append, List.nil_append,
    Json.canonical, Json.canonicalMembers, Json.insertMember, Span.canonical_record, Json.nat,
    Kind.toJson, String.reduceLT, String.reduceEq, ↓reduceIte]

namespace Diagnostic

theorem canonicalItems_fixes (fixes : List Fix) :
    Json.canonicalItems (fixes.map Fix.toJson) = fixes.map Fix.toJson := by
  induction fixes with
  | nil => rfl
  | cons f fixes ih =>
    rw [List.map_cons, Json.canonicalItems, ih]
    cases f <;> simp only [Fix.toJson, Json.canonical, Json.canonicalMembers, Json.insertMember,
      String.reduceLT, String.reduceEq, ↓reduceIte]

/-- **The two ways of writing** differ in the order of the keys. -/
theorem canonical_record (d : Diagnostic) : d.record.canonical = d.toJson := by
  have severity : d.severity.toJson.canonical = d.severity.toJson := rfl
  rw [record, toJson, toJsonWith, fixesField]
  cases d.location <;> cases d.fixes.isEmpty <;>
    simp only [memberOf, List.append_nil, List.cons_append, List.nil_append, id,
      Bool.false_eq_true, Json.canonical, Json.canonicalMembers, Json.insertMember, severity,
      canonicalItems_fixes, Anchor.canonical_record, Location.canonical_record,
      String.reduceLT, String.reduceEq, ↓reduceIte]

/-- **Diagnostics are read as they were written, and written as they were read.**  Those that fit
are read from each of their texts; and a text that is read, whatever it leaves out or adds and in
whatever order, gives one that fits. -/
theorem rereads :
    (∀ d : Diagnostic, ∀ text ∈ d.texts, ofText? text = some d ↔ d.Fits) ∧
    (∀ text d, ofText? text = some d → ∀ again ∈ d.texts, ofText? again = some d) ∧
    ∀ d : Diagnostic, d.record.canonical = d.toJson :=
  ⟨fun _ _ written => ⟨fits_of_ofText?, fun fits => fits.ofText? written⟩,
    fun _ _ read _ written => (fits_of_ofText? read).ofText? written, canonical_record⟩

/-- A text that leaves out what has a default, adds a key, and writes an anchor as an array and the
kinds of fixes as numbers. -/
theorem rereads_of_given :
    let given := "\x7b\"fixes\":[\x7b\"trigger\":\"\\u00e9\",\"kind\":0\x7d,\x7b\"kind\":1\x7d]," ++
      "\"message\":\"\\\"\",\"x\":1,\"inspection_id\":\"\",\"anchor\":[7,0,\"Text\",[1,3],null]\x7d"
    let d : Diagnostic := ⟨"", "\"", .error, ⟨7, 0, .text, ⟨1, 3⟩, none⟩, none,
      [.rename "é", .removeValue]⟩
    ofText? given = some d ∧ d.Fits ∧ ∀ again ∈ d.texts, ofText? again = some d := by
  intro given d
  obtain ⟨fits, texts, -⟩ := rereads
  have read : ofText? given = some d := by decide +kernel
  have again := texts given d read
  have compact : d.record.compact ∈ d.texts := List.mem_cons_self
  exact ⟨read, (fits d _ compact).1 (again _ compact), again⟩

end Diagnostic

end SyntaxLint
