import Mathlib.Data.List.Basic
import SyntaxLint.Json.Decode

/-!
# Proofs — JSON — canonical values

In the canonical form of an object every key stands once, in order, with the value that is given
last in the text.  So a record is read of it with every key that is there, and no key is one too
many.

* `Json.given?`: the value of a key, the last if it is given more than once.
* `Json.lookup_canonicalMembers`: what is kept.
* `Json.fields?_canonical`: the fields of a record.
-/

namespace SyntaxLint.Json

variable {key k : String} {v w : Json} {ms sorted : List (String × Json)}

/-- The value that an object gives a key, the last if there are several. -/
def given? (key : String) : Json → Option Json
  | .object members => members.reverse.lookup key
  | _ => none

/-- Members with keys in order, each key once. -/
def Keyed (ms : List (String × Json)) : Prop := ms.Pairwise (·.1 < ·.1)

theorem lookup_cons_eq (k : String) (v : Json) (ms : List (String × Json)) (key : String) :
    List.lookup key ((k, v) :: ms) = if key = k then some v else ms.lookup key := by
  rw [List.lookup_cons]
  split <;> simp_all

theorem mem_of_lookup {ms : List (String × Json)} {key : String} (h : ms.lookup key = some v) :
    (key, v) ∈ ms := by
  obtain ⟨before, after, rfl, -⟩ := List.lookup_eq_some_iff.1 h
  simp

/-! ### Inserting -/

theorem mem_insertMember {m : String × Json} (h : m ∈ insertMember key v ms) :
    m = (key, v) ∨ m ∈ ms := by
  fun_induction insertMember key v ms with
  | case1 => exact .inl (List.mem_singleton.1 h)
  | case2 k w more lt => exact List.mem_cons.1 h
  | case3 k w more => exact (List.mem_cons.1 h).imp_right (List.mem_cons_of_mem _)
  | case4 k w more _ _ ih =>
    rcases List.mem_cons.1 h with rfl | h
    · exact .inr List.mem_cons_self
    · exact (ih h).imp_right (List.mem_cons_of_mem _)

theorem keyed_insertMember (h : Keyed ms) (key : String) (v : Json) :
    Keyed (insertMember key v ms) := by
  fun_induction insertMember key v ms with
  | case1 => exact List.pairwise_singleton ..
  | case2 k w more lt =>
    refine List.pairwise_cons.2 ⟨List.forall_mem_cons.2 ⟨lt, fun m hm => ?_⟩, h⟩
    exact String.lt_trans lt ((List.pairwise_cons.1 h).1 m hm)
  | case3 k w more => exact List.pairwise_cons.2 (List.pairwise_cons.1 h)
  | case4 k w more ge ne ih =>
    obtain ⟨first, rest⟩ := List.pairwise_cons.1 h
    refine List.pairwise_cons.2 ⟨fun m hm => ?_, ih rest⟩
    rcases mem_insertMember hm with rfl | hm
    · exact Std.lt_of_le_of_ne ge (Ne.symm ne)
    · exact first m hm

/-- A key that is inserted has the new value, and any other the one it had. -/
theorem lookup_insertMember (ms : List (String × Json)) (k : String) (v : Json) (key : String) :
    (insertMember k v ms).lookup key = if key = k then some v else ms.lookup key := by
  fun_induction insertMember k v ms with
  | case1 => simp [lookup_cons_eq]
  | case2 => simp [lookup_cons_eq]
  | case3 => by_cases e : key = k <;> simp [lookup_cons_eq, e]
  | case4 k' w more _ ne ih =>
    rw [lookup_cons_eq, lookup_cons_eq, ih]
    by_cases e : key = k'
    · have other : key ≠ k := fun same => ne (same.symm.trans e)
      rw [if_pos e, if_neg other, if_pos e]
    · rw [if_neg e, if_neg e]

/-! ### The canonical form -/

theorem keyed_canonicalMembers (ms : List (String × Json)) (h : Keyed sorted) :
    Keyed (canonicalMembers ms sorted) := by
  induction ms generalizing sorted with
  | nil => rwa [canonicalMembers]
  | cons m ms ih =>
    rw [canonicalMembers]
    exact ih (keyed_insertMember h _ _)

/-- **What is kept** of a key is the value that is given last, in its canonical form. -/
theorem lookup_canonicalMembers (ms sorted : List (String × Json)) (key : String) :
    (canonicalMembers ms sorted).lookup key =
      ((ms.reverse.lookup key).map canonical).or (sorted.lookup key) := by
  induction ms generalizing sorted with
  | nil => rfl
  | cons m ms ih =>
    obtain ⟨k, v⟩ := m
    rw [canonicalMembers, ih, lookup_insertMember, List.reverse_cons, List.lookup_append,
      lookup_cons_eq]
    by_cases e : key = k <;> cases ms.reverse.lookup key <;> simp [e]

/-- A canonical object gives a key what the object gives it. -/
theorem lookup_canonical {ms : List (String × Json)} (key : String) :
    (canonicalMembers ms []).lookup key = ((Json.object ms).given? key).map canonical := by
  rw [lookup_canonicalMembers]
  simp [given?]

/-- A value that is neither an array nor an object is canonical. -/
theorem eq_of_canonical_eq (h : v.canonical = w) (list : ∀ items, w ≠ .array items)
    (record : ∀ ms, w ≠ .object ms) : v = w := by
  cases v with
  | array items => exact absurd h.symm (by rw [canonical]; exact list _)
  | object ms => exact absurd h.symm (by rw [canonical]; exact record _)
  | _ => exact h

/-- A key that stands once is found. -/
theorem member?_of_keyed (h : Keyed ms) (key : String) : member? key ms = some (ms.lookup key) := by
  induction ms with
  | nil => rfl
  | cons m ms ih =>
    obtain ⟨k, v⟩ := m
    obtain ⟨first, rest⟩ := List.pairwise_cons.1 h
    by_cases e : k = key
    · subst e
      have out : ms.filter (·.1 == k) = [] := by
        refine List.filter_eq_nil_iff.2 fun m hm same => ?_
        exact String.lt_irrefl _ (eq_of_beq same ▸ first m hm)
      simp [member?, out]
    · have ne : key ≠ k := Ne.symm e
      have same := ih rest
      rw [member?] at same ⊢
      simpa [e, ne, lookup_cons_eq] using same

/-- **The fields of a record** are those that are given last. -/
theorem fields?_canonical (names : List String) (ms : List (String × Json)) :
    (canonical (.object ms)).fields? names = some ⟨false, names.map fun key =>
      ((Json.object ms).given? key).map canonical⟩ := by
  have keyed : Keyed (canonicalMembers ms []) := keyed_canonicalMembers ms .nil
  have found : ∀ key, member? key (canonicalMembers ms []) =
      some (((Json.object ms).given? key).map canonical) := by
    intro key
    rw [member?_of_keyed keyed, lookup_canonical]
  rw [canonical, fields?]
  induction names with
  | nil => rfl
  | cons key names ih =>
    rw [List.mapM_cons, found key]
    cases rest : names.mapM (member? · (canonicalMembers ms [])) with
    | none => simp [rest] at ih
    | some values =>
      rw [rest] at ih
      simpa using ih

end SyntaxLint.Json
