import SyntaxLint.Proofs.Json.Literals

/-!
# Proofs — JSON — reading what was written

Both ways of writing a value are one way with other blanks between the pieces.  A value without
doubles, whose literals all have a meaning, is read again from the text it is written as, with
whatever follows it: the steps that the reader may take are more than the characters it passes.

* `Json.Plain`, `Json.Style`: the values, and the ways of writing.
* `Json.readsBack`: the reader inverts every way of writing.
* `Json.read_pretty`, `Json.read_compact`: the two ways there are.
-/

namespace SyntaxLint.Json

mutual

/-- A value without doubles, whose literals all have a meaning. -/
def Plain : Json → Prop
  | .null | .bool _ | .string _ => True
  | .number n => n.Exact
  | .array items => ArePlain items
  | .object members => MembersPlain members
  | .meaningless => False

def ArePlain : List Json → Prop
  | [] => True
  | v :: more => v.Plain ∧ ArePlain more

def MembersPlain : List (String × Json) → Prop
  | [] => True
  | (_, v) :: more => v.Plain ∧ MembersPlain more

end

/-- The blanks of a way of writing: before what stands at a level on its own, and behind a
colon. -/
structure Style where
  line : Nat → List Char
  colon : List Char

/-- A character that may stand between any two pieces of a text. -/
def isBlank (c : Char) : Bool := c = ' ' || c = '\n' || c = '\t' || c = '\r'

/-- A way of writing that adds nothing but blanks. -/
structure Style.Blank (σ : Style) : Prop where
  line : ∀ level, ∀ c ∈ σ.line level, isBlank c = true
  colon : ∀ c ∈ σ.colon, isBlank c = true

mutual

/-- A value, inside `level` arrays and objects, in some way of writing. -/
def write (σ : Style) (level : Nat) : Json → List Char → List Char
  | .null, after => 'n' :: 'u' :: 'l' :: 'l' :: after
  | .bool true, after => 't' :: 'r' :: 'u' :: 'e' :: after
  | .bool false, after => 'f' :: 'a' :: 'l' :: 's' :: 'e' :: after
  | .number n, after => writeNumber n ++ after
  | .string s, after => writeString s after
  | .array [], after => '[' :: ']' :: after
  | .array (v :: more), after =>
    '[' :: (σ.line (level + 1) ++ write σ (level + 1) v (writeItems σ level more after))
  | .object [], after => '\x7b' :: '\x7d' :: after
  | .object ((k, v) :: more), after =>
    '\x7b' :: (σ.line (level + 1) ++ writeString k (':' :: (σ.colon ++
      write σ (level + 1) v (writeMembers σ level more after))))
  | .meaningless, after => 'n' :: 'u' :: 'l' :: 'l' :: after

def writeItems (σ : Style) (level : Nat) : List Json → List Char → List Char
  | [], after => σ.line level ++ ']' :: after
  | v :: more, after =>
    ',' :: (σ.line (level + 1) ++ write σ (level + 1) v (writeItems σ level more after))

def writeMembers (σ : Style) (level : Nat) : List (String × Json) → List Char → List Char
  | [], after => σ.line level ++ '\x7d' :: after
  | (k, v) :: more, after =>
    ',' :: (σ.line (level + 1) ++ writeString k (':' :: (σ.colon ++
      write σ (level + 1) v (writeMembers σ level more after))))

end

namespace Style

/-- No blanks. -/
def compact : Style := ⟨fun _ => [], []⟩

/-- Over several lines. -/
def pretty : Style := ⟨fun level => newline level [], [' ']⟩

theorem blank_compact : compact.Blank := ⟨by simp [compact], by simp [compact]⟩

theorem blank_pretty : pretty.Blank := by
  refine ⟨fun level c hc => ?_, by simp [pretty, isBlank]⟩
  rcases List.mem_cons.1 hc with rfl | hc
  · rfl
  · rw [List.append_nil, List.mem_replicate] at hc
    rw [hc.2]
    rfl

end Style

theorem newline_append (level : Nat) (after : List Char) :
    Style.pretty.line level ++ after = newline level after := by
  simp [Style.pretty, newline]

mutual

/-- Writing over several lines is a way of writing. -/
theorem write_pretty :
    ∀ (v : Json) (level : Nat) (after : List Char),
      write .pretty level v after = writePretty level v after
  | .null, _, _ | .bool true, _, _ | .bool false, _, _ | .number _, _, _ | .string _, _, _
  | .array [], _, _ | .object [], _, _ | .meaningless, _, _ => by simp [write, writePretty]
  | .array (v :: more), level, after => by
    rw [write, writePretty, newline_append, write_pretty v, write_pretty_items more]
  | .object ((k, v) :: more), level, after => by
    rw [write, writePretty, newline_append, write_pretty v, write_pretty_members more]
    rfl

theorem write_pretty_items :
    ∀ (items : List Json) (level : Nat) (after : List Char),
      writeItems .pretty level items after = writePrettyItems level items after
  | [], level, after => by rw [writeItems, writePrettyItems, newline_append]
  | v :: more, level, after => by
    rw [writeItems, writePrettyItems, newline_append, write_pretty v, write_pretty_items more]

theorem write_pretty_members :
    ∀ (members : List (String × Json)) (level : Nat) (after : List Char),
      writeMembers .pretty level members after = writePrettyMembers level members after
  | [], level, after => by rw [writeMembers, writePrettyMembers, newline_append]
  | (k, v) :: more, level, after => by
    rw [writeMembers, writePrettyMembers, newline_append, write_pretty v,
      write_pretty_members more]
    rfl

end

mutual

/-- Writing without blanks is a way of writing. -/
theorem write_compact :
    ∀ (v : Json) (level : Nat) (after : List Char),
      write .compact level v after = writeCompact v after
  | .null, _, _ | .bool true, _, _ | .bool false, _, _ | .number _, _, _ | .string _, _, _
  | .array [], _, _ | .object [], _, _ | .meaningless, _, _ => by simp [write, writeCompact]
  | .array (v :: more), level, after => by
    rw [write, writeCompact, write_compact v, write_compact_items more]
    rfl
  | .object ((k, v) :: more), level, after => by
    rw [write, writeCompact, write_compact v, write_compact_members more]
    rfl

theorem write_compact_items :
    ∀ (items : List Json) (level : Nat) (after : List Char),
      writeItems .compact level items after = writeCompactItems items after
  | [], level, after => rfl
  | v :: more, level, after => by
    rw [writeItems, writeCompactItems, write_compact v, write_compact_items more]
    rfl

theorem write_compact_members :
    ∀ (members : List (String × Json)) (level : Nat) (after : List Char),
      writeMembers .compact level members after = writeCompactMembers members after
  | [], level, after => rfl
  | (k, v) :: more, level, after => by
    rw [writeMembers, writeCompactMembers, write_compact v, write_compact_members more]
    rfl

end

/-! ### What a value begins with, and how long it is -/

variable {v : Json} {σ : Style} {after cs : List Char} {level steps : Nat} {c : Char}

theorem skipBlanks_eq (c : Char) (cs : List Char) :
    skipBlanks (c :: cs) = if isBlank c then skipBlanks cs else c :: cs := rfl

theorem skipBlanks_append {blanks : List Char} (h : ∀ c ∈ blanks, isBlank c = true)
    (cs : List Char) : skipBlanks (blanks ++ cs) = skipBlanks cs := by
  induction blanks with
  | nil => rfl
  | cons c blanks ih =>
    rw [List.forall_mem_cons] at h
    rw [List.cons_append, skipBlanks_eq, if_pos h.1, ih h.2]

/-- A text that is no blank and closes no list: every value is such a text. -/
def Opens (cs : List Char) : Prop :=
  ∀ c ∈ cs.head?, isBlank c = false ∧ c ≠ ']' ∧ c ≠ '\x7d'

theorem Opens.skipBlanks (h : Opens cs) : Json.skipBlanks cs = cs := by
  cases cs with
  | nil => rfl
  | cons c cs => rw [skipBlanks_eq, if_neg (by simp [(h c rfl).1])]

theorem opens_writeNumber {n : Number} (exact : n.Exact) (after : List Char) :
    Opens (writeNumber n ++ after) := by
  obtain ⟨c, cs, written, sign | digit⟩ := exists_writeNumber exact
  · simp [written, Opens, sign, isBlank]
  · have ne : ∀ x : Char, x.isDigit = false → c ≠ x := by
      rintro x other rfl
      simp [digit] at other
    simp [written, Opens, isBlank, ne]

theorem opens_writeString (s : String) (after : List Char) : Opens (writeString s after) := by
  simp [writeString, Opens, isBlank]

/-- A value begins with a character that is neither a blank nor a closing bracket. -/
theorem opens_write (plain : v.Plain) (σ : Style) (level : Nat) (after : List Char) :
    Opens (write σ level v after) := by
  cases v with
  | null => simp [write, Opens, isBlank]
  | bool b => cases b <;> simp [write, Opens, isBlank]
  | number n => rw [write]; exact opens_writeNumber plain after
  | string s => rw [write]; exact opens_writeString s after
  | array items => cases items <;> simp [write, Opens, isBlank]
  | object members => cases members <;> simp [write, Opens, isBlank]
  | meaningless => exact plain.elim

mutual

/-- What follows a value is written behind it. -/
theorem write_append : ∀ (v : Json) (level : Nat) (before after : List Char),
    write σ level v (before ++ after) = write σ level v before ++ after
  | .null, _, _, _ | .bool true, _, _, _ | .bool false, _, _, _ | .array [], _, _, _
  | .object [], _, _, _ | .meaningless, _, _, _ | .number _, _, _, _ => by simp [write]
  | .string s, _, before, after => by rw [write, write, writeString_append]
  | .array (v :: more), level, before, after => by
    simp [write, writeItems_append more, write_append v]
  | .object ((k, v) :: more), level, before, after => by
    simp only [write, writeMembers_append more, write_append v, ← List.cons_append,
      ← List.append_assoc, writeString_append]

theorem writeItems_append : ∀ (items : List Json) (level : Nat) (before after : List Char),
    writeItems σ level items (before ++ after) = writeItems σ level items before ++ after
  | [], _, _, _ => by simp [writeItems]
  | v :: more, level, before, after => by
    simp [writeItems, writeItems_append more, write_append v]

theorem writeMembers_append : ∀ (members : List (String × Json)) (level : Nat)
    (before after : List Char),
    writeMembers σ level members (before ++ after) = writeMembers σ level members before ++ after
  | [], _, _, _ => by simp [writeMembers]
  | (k, v) :: more, level, before, after => by
    simp only [writeMembers, writeMembers_append more, write_append v, ← List.cons_append,
      ← List.append_assoc, writeString_append]

end

theorem length_lt_write (plain : v.Plain) (σ : Style) (level : Nat) (after : List Char) :
    after.length < (write σ level v after).length := by
  have some : write σ level v [] ≠ [] := by
    cases v with
    | bool b => cases b <;> simp [write]
    | number n =>
      obtain ⟨c, cs, written, -⟩ := exists_writeNumber plain
      simp [write, written]
    | array items => cases items <;> simp [write]
    | object members => cases members <;> simp [write]
    | _ => simp [write, writeString]
  have split := write_append (σ := σ) v level [] after
  rw [List.nil_append] at split
  rw [split, List.length_append]
  exact Nat.lt_add_of_pos_left (List.length_pos_iff.2 some)

theorem length_lt_writeItems (σ : Style) (items : List Json) (level : Nat) (after : List Char) :
    after.length < (writeItems σ level items after).length := by
  have split := writeItems_append (σ := σ) items level [] after
  rw [List.nil_append] at split
  rw [split, List.length_append]
  refine Nat.lt_add_of_pos_left (List.length_pos_iff.2 ?_)
  cases items <;> simp [writeItems]

theorem length_lt_writeMembers (σ : Style) (members : List (String × Json)) (level : Nat)
    (after : List Char) : after.length < (writeMembers σ level members after).length := by
  have split := writeMembers_append (σ := σ) members level [] after
  rw [List.nil_append] at split
  rw [split, List.length_append]
  refine Nat.lt_add_of_pos_left (List.length_pos_iff.2 ?_)
  cases members <;> simp [writeMembers]

/-! ### What follows a value -/

theorem endsNumber_of_isBlank {c : Char} (h : isBlank c = true) : EndsNumber (c :: after) := by
  simp only [isBlank, Bool.or_eq_true, decide_eq_true_eq] at h
  rcases h with ((rfl | rfl) | rfl) | rfl <;> exact endsNumber_cons (by decide)

theorem endsNumber_line (hσ : σ.Blank) {c : Char} (closes : c = ']' ∨ c = '\x7d') :
    EndsNumber (σ.line level ++ c :: after) := by
  cases written : σ.line level with
  | nil => rcases closes with rfl | rfl <;> exact endsNumber_cons (by decide)
  | cons b blanks => exact endsNumber_of_isBlank (hσ.line level b (by simp [written]))

/-- No number goes on with what follows an item or a member. -/
theorem endsNumber_writeItems (hσ : σ.Blank) (items : List Json) :
    EndsNumber (writeItems σ level items after) := by
  cases items with
  | nil => exact endsNumber_line hσ (.inl rfl)
  | cons v more => exact endsNumber_cons (by decide)

theorem endsNumber_writeMembers (hσ : σ.Blank) (members : List (String × Json)) :
    EndsNumber (writeMembers σ level members after) := by
  cases members with
  | nil => exact endsNumber_line hσ (.inr rfl)
  | cons v more => exact endsNumber_cons (by decide)

/-! ### Reading one piece -/

theorem readValue_number {n : Number} (exact : n.Exact) (ends : EndsNumber after)
    (h : skipBlanks cs = writeNumber n ++ after) :
    readValue (steps + 1) cs = some (.number n, after) := by
  obtain ⟨numeral, read, value⟩ := readNumeral_writeNumber exact ends
  obtain ⟨c, cs', written, first⟩ := exists_writeNumber exact
  have ne : ∀ x : Char, x ≠ '-' → x.isDigit = false → c ≠ x := by
    rintro x sign other rfl
    simp [sign, other] at first
  rw [readValue]
  split
  case h_7 => simp [h, read, value]
  -- every other piece begins with a character that no number begins with
  all_goals
    rename_i same
    rw [h, written, List.cons_append] at same
    exact absurd (List.cons.inj same).1 (ne _ (by decide) (by decide))

theorem readValue_array {inner : List Char} {items : List Json}
    (h : skipBlanks cs = '[' :: inner) (opens : Opens (skipBlanks inner))
    (read : readItems steps (skipBlanks inner) = some (items, after)) :
    readValue (steps + 1) cs = some (.array items, after) := by
  simp only [readValue, h]
  split
  case h_1 closed =>
    rw [closed] at opens
    exact absurd rfl (opens ']' rfl).2.1
  case h_2 => simp [read]

/-- Members all of whose keys were read are those of an object. -/
theorem ofMembers_map (members : List (String × Json)) :
    ofMembers (members.map fun m => (some m.1, m.2)) = .object members := by
  have all : (members.map fun m => (some m.1, m.2)).mapM
      (fun m : Option String × Json => m.1.map (·, m.2)) = some members := by
    induction members with
    | nil => rfl
    | cons m more ih => rw [List.map_cons, List.mapM_cons, ih]; rfl
  rw [ofMembers, all]

theorem readValue_object {inner : List Char} {members : List (String × Json)}
    (h : skipBlanks cs = '\x7b' :: inner) (opens : Opens (skipBlanks inner))
    (read : readMembers steps (skipBlanks inner) =
      some (members.map fun m => (some m.1, m.2), after)) :
    readValue (steps + 1) cs = some (.object members, after) := by
  simp only [readValue, h]
  split
  case h_1 closed =>
    rw [closed] at opens
    exact absurd rfl (opens '\x7d' rfl).2.2
  case h_2 => simp [read, ofMembers_map]

/-! ### Reading values -/

/-- A value that is read as it is written, whatever follows it, in as many steps as it has
characters at most. -/
structure ReadsBack (σ : Style) (v : Json) : Prop where
  plain : v.Plain
  read : ∀ {level steps : Nat} {after cs : List Char}, EndsNumber after →
    skipBlanks cs = write σ level v after →
    (write σ level v after).length ≤ steps + after.length →
    readValue steps cs = some (v, after)

/-- A value is read behind blanks. -/
theorem ReadsBack.behind (h : ReadsBack σ v) {blanks : List Char}
    (blank : ∀ c ∈ blanks, isBlank c = true) (ends : EndsNumber after)
    (enough : (write σ level v after).length ≤ steps + after.length) :
    readValue steps (blanks ++ write σ level v after) = some (v, after) :=
  h.read ends ((skipBlanks_append blank _).trans (opens_write h.plain σ level after).skipBlanks)
    enough

/-- The items of an array are read, once the first of them is. -/
theorem readItems_write (hσ : σ.Blank) {more : List Json} (h : ∀ w ∈ more, ReadsBack σ w)
    (first : readValue steps cs = some (v, writeItems σ level more after))
    (enough : (writeItems σ level more after).length ≤ steps + after.length) :
    readItems (steps + 1) cs = some (v :: more, after) := by
  induction more generalizing v steps cs with
  | nil =>
    have closed : skipBlanks (writeItems σ level [] after) = ']' :: after := by
      rw [writeItems, skipBlanks_append (hσ.line level)]
      rfl
    simp [readItems, first, closed]
  | cons w more ih =>
    rw [List.forall_mem_cons] at h
    have longer := length_lt_write h.1.plain σ (level + 1) (writeItems σ level more after)
    have rest := length_lt_writeItems σ more level after
    rw [writeItems] at first enough
    simp only [List.length_cons, List.length_append] at enough
    obtain ⟨steps, rfl⟩ : ∃ s, steps = s + 1 := ⟨steps - 1, by omega⟩
    have next : readValue steps (σ.line (level + 1) ++
        write σ (level + 1) w (writeItems σ level more after)) =
        some (w, writeItems σ level more after) :=
      h.1.behind (hσ.line (level + 1)) (endsNumber_writeItems hσ more) (by omega)
    have items := ih h.2 next (by omega)
    rw [readItems, first]
    simp [skipBlanks, items]

/-- The members of an object are read, once the value of the first of them is. -/
theorem readMembers_write (hσ : σ.Blank) {more : List (String × Json)}
    (h : ∀ m ∈ more, ReadsBack σ m.2) {k : String} {value : List Char}
    (key : skipBlanks cs = writeString k (':' :: value))
    (first : readValue steps value = some (v, writeMembers σ level more after))
    (enough : (writeMembers σ level more after).length ≤ steps + after.length) :
    readMembers (steps + 1) cs = some (((k, v) :: more).map fun m => (some m.1, m.2), after) := by
  induction more generalizing k v steps cs value with
  | nil =>
    have closed : skipBlanks (writeMembers σ level [] after) = '\x7d' :: after := by
      rw [writeMembers, skipBlanks_append (hσ.line level)]
      rfl
    rw [writeString] at key
    simp [readMembers, key, readString_writeString, skipBlanks, first, closed]
  | cons m more ih =>
    obtain ⟨k', w⟩ := m
    rw [List.forall_mem_cons] at h
    have back : ReadsBack σ w := h.1
    have longer := length_lt_write back.plain σ (level + 1) (writeMembers σ level more after)
    have rest := length_lt_writeMembers σ more level after
    have written := length_lt_writeString k' (':' :: (σ.colon ++
      write σ (level + 1) w (writeMembers σ level more after)))
    rw [writeMembers] at first enough
    simp only [List.length_cons, List.length_append] at enough written
    obtain ⟨steps, rfl⟩ : ∃ s, steps = s + 1 := ⟨steps - 1, by omega⟩
    have next : readValue steps (σ.colon ++
        write σ (level + 1) w (writeMembers σ level more after)) =
        some (w, writeMembers σ level more after) :=
      back.behind hσ.colon (endsNumber_writeMembers hσ more) (by omega)
    have members := ih h.2
      ((skipBlanks_append (hσ.line (level + 1)) _).trans (opens_writeString k' _).skipBlanks)
      next (by omega)
    rw [writeString] at key
    rw [readMembers]
    simp [key, readString_writeString, skipBlanks, first, members]

theorem readsBack_array (hσ : σ.Blank) {more : List Json} (first : ReadsBack σ v)
    (h : ∀ w ∈ more, ReadsBack σ w) (plain : (array (v :: more)).Plain) :
    ReadsBack σ (.array (v :: more)) := by
  refine ⟨plain, fun {level steps after cs} _ written enough => ?_⟩
  have opens := opens_write first.plain σ (level + 1) (writeItems σ level more after)
  have longer := length_lt_write first.plain σ (level + 1) (writeItems σ level more after)
  have rest := length_lt_writeItems σ more level after
  have skip := (skipBlanks_append (hσ.line (level + 1))
    (write σ (level + 1) v (writeItems σ level more after))).trans opens.skipBlanks
  rw [write] at written enough
  simp only [List.length_cons, List.length_append] at enough
  obtain ⟨steps, rfl⟩ : ∃ s, steps = s + 2 := ⟨steps - 2, by omega⟩
  refine readValue_array written (by rw [skip]; exact opens) ?_
  rw [skip]
  refine readItems_write hσ h (first.read (endsNumber_writeItems hσ more) opens.skipBlanks ?_) ?_
  · omega
  · omega

theorem readsBack_object (hσ : σ.Blank) {k : String} {more : List (String × Json)}
    (first : ReadsBack σ v) (h : ∀ m ∈ more, ReadsBack σ m.2)
    (plain : (object ((k, v) :: more)).Plain) : ReadsBack σ (.object ((k, v) :: more)) := by
  refine ⟨plain, fun {level steps after cs} _ written enough => ?_⟩
  have longer := length_lt_write first.plain σ (level + 1) (writeMembers σ level more after)
  have rest := length_lt_writeMembers σ more level after
  have key := length_lt_writeString k (':' :: (σ.colon ++
    write σ (level + 1) v (writeMembers σ level more after)))
  have opens := opens_writeString k (':' :: (σ.colon ++
    write σ (level + 1) v (writeMembers σ level more after)))
  have skip := (skipBlanks_append (hσ.line (level + 1)) _).trans opens.skipBlanks
  rw [write] at written enough
  simp only [List.length_cons, List.length_append] at enough key
  obtain ⟨steps, rfl⟩ : ∃ s, steps = s + 2 := ⟨steps - 2, by omega⟩
  refine readValue_object written (by rw [skip]; exact opens) ?_
  rw [skip]
  refine readMembers_write hσ h opens.skipBlanks
    (first.behind hσ.colon (endsNumber_writeMembers hσ more) ?_) ?_
  · omega
  · omega

/-- What is written alike at every level and read in one step. -/
theorem readsBack_of_step (plain : v.Plain)
    (h : ∀ {level steps : Nat} {after cs : List Char}, EndsNumber after →
      skipBlanks cs = write σ level v after → readValue (steps + 1) cs = some (v, after)) :
    ReadsBack σ v := by
  refine ⟨plain, fun {level steps after cs} ends written enough => ?_⟩
  have := length_lt_write plain σ level after
  obtain ⟨steps, rfl⟩ : ∃ s, steps = s + 1 := ⟨steps - 1, by omega⟩
  exact h ends written

mutual

/-- **A value is read as it is written**, in any way, whatever follows it. -/
theorem readsBack (hσ : σ.Blank) : ∀ (v : Json), v.Plain → ReadsBack σ v
  | .null, _ | .bool true, _ | .bool false, _ | .array [], _ | .object [], _ => by
    refine readsBack_of_step trivial fun _ written => ?_
    rw [write] at written
    simp [readValue, written, skipBlanks]
  | .number n, plain => by
    refine readsBack_of_step plain fun ends written => ?_
    rw [write] at written
    exact readValue_number plain ends written
  | .string s, _ => by
    refine readsBack_of_step trivial fun _ written => ?_
    rw [write, writeString] at written
    simp [readValue, written, readString_writeString]
  | .array (v :: more), plain =>
    readsBack_array hσ (readsBack hσ v plain.1) (readsBack_items hσ more plain.2) plain
  | .object ((_, v) :: more), plain =>
    readsBack_object hσ (readsBack hσ v plain.1) (readsBack_members hσ more plain.2) plain

theorem readsBack_items (hσ : σ.Blank) :
    ∀ (items : List Json), ArePlain items → ∀ w ∈ items, ReadsBack σ w
  | [], _ => by simp
  | v :: more, plain => by
    rw [List.forall_mem_cons]
    exact ⟨readsBack hσ v plain.1, readsBack_items hσ more plain.2⟩

theorem readsBack_members (hσ : σ.Blank) :
    ∀ (members : List (String × Json)), MembersPlain members → ∀ m ∈ members, ReadsBack σ m.2
  | [], _ => by simp
  | (_, v) :: more, plain => by
    rw [List.forall_mem_cons]
    exact ⟨readsBack hσ v plain.1, readsBack_members hσ more plain.2⟩

end

/-- A value is read from a text that holds nothing else but blanks. -/
theorem read_write (hσ : σ.Blank) (plain : v.Plain) {blanks : List Char}
    (blank : ∀ c ∈ blanks, isBlank c = true) :
    read (.ofList (write σ level v blanks)) = some v := by
  have ends : EndsNumber blanks := by
    cases blanks with
    | nil => simp [EndsNumber]
    | cons b blanks => exact endsNumber_of_isBlank (blank b List.mem_cons_self)
  have value : readValue (2 * (write σ level v blanks).length + 2) (write σ level v blanks) =
      some (v, blanks) :=
    (readsBack hσ v plain).read ends (opens_write plain σ level _).skipBlanks (by omega)
  have done : skipBlanks blanks = [] := by
    have h := skipBlanks_append blank []
    rwa [List.append_nil] at h
  simp [read, value, done]

/-- The text of a value over several lines is read again, whatever blanks follow it. -/
theorem read_pretty_append (plain : v.Plain) {blanks : List Char}
    (blank : ∀ c ∈ blanks, isBlank c = true) : read (v.pretty ++ .ofList blanks) = some v := by
  have h : read (.ofList (write .pretty 0 v ([] ++ blanks))) = some v :=
    read_write Style.blank_pretty plain blank
  rw [write_append, write_pretty] at h
  rw [pretty]
  simpa using h

/-- **The text of a value over several lines is read again**, with a line break at its end. -/
theorem read_pretty (plain : v.Plain) : read (v.pretty ++ "\n") = some v :=
  read_pretty_append plain (by simp [isBlank])

/-- **The text of a value without blanks is read again.** -/
theorem read_compact (plain : v.Plain) : read v.compact = some v := by
  have h : read (.ofList (write .compact 0 v [])) = some v :=
    read_write Style.blank_compact plain (List.forall_mem_nil _)
  rwa [write_compact] at h

end SyntaxLint.Json
