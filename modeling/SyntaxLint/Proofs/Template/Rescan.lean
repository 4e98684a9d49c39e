import Mathlib.Data.List.Forall2
import SyntaxLint.Proofs.Template.Rebind

/-!
# Proofs — Templates — reading a template with other start tags

A template in which start tags are written otherwise, under the same names, is read as the items it
was, each with its tag as it is written now.  A tag ends by itself; a text ends before the next `<`,
which no start tag moves; and raw text ends before an end tag that is written out in full.  So a
template in which every trigger that is given an expression is rebound is read as the rebound items.

* `StartTag.Stable`, `Item.Revises`: start tags that are read as themselves, and items with these.
* `scanItem_revised`: one item.
* `scan_revised`, `scan_rebind`: all items.
-/

namespace SyntaxLint.Template

open Text

variable {squeeze : List Char → List Char} {cs rest rest' : List Char}

/-! ### Letters -/

theorem isAlpha_eq (c : Char) : c.isAlpha = (decide (c.val ≥ 'A'.val ∧ c.val ≤ 'Z'.val) ||
    (decide (c.val ≥ 'a'.val) && decide (c.val ≤ 'z'.val))) := rfl

theorem toNat_of_isAlpha {c : Char} (h : c.isAlpha = true) :
    65 ≤ c.toNat ∧ c.toNat ≤ 90 ∨ 97 ≤ c.toNat ∧ c.toNat ≤ 122 := by
  simpa [isAlpha_eq, UInt32.le_iff_toNat_le] using h

theorem isBlank_of_isAlpha {c : Char} (h : c.isAlpha = true) : isBlank c = false := by
  have range := toNat_of_isAlpha h
  simp only [isBlank, blankRanges, Ranges.has, List.any_cons, List.any_nil, Bool.or_false,
    Bool.or_eq_false_iff, Bool.and_eq_false_iff, decide_eq_false_iff_not]
  omega

theorem endsTagName_of_isAlpha {c : Char} (h : c.isAlpha = true) (cs : List Char) :
    endsTagName (c :: cs) = false := by
  simp only [endsTagName, isBlank_of_isAlpha h, Bool.false_or, List.contains_eq_mem,
    decide_eq_false_iff_not]
  intro mem
  simp only [List.mem_cons, List.not_mem_nil, or_false] at mem
  rcases mem with rfl | rfl | rfl | rfl | rfl | rfl <;> exact absurd h (by decide)

theorem isAlpha_of_toLower {c : Char} (h : c.toLower.isAlpha = true) : c.isAlpha = true := by
  unfold Char.toLower at h
  split at h
  · rename_i upper
    rw [isAlpha_eq, decide_eq_true upper, Bool.true_or]
  · exact h

theorem eq_of_toLower_eq {c d : Char} (h : c.toLower = d) (hd : d.isAlpha = false) : c = d := by
  unfold Char.toLower at h
  split at h
  · rename_i upper
    subst h
    simp [isAlpha_eq, UInt32.le_iff_toNat_le] at hd upper
    omega
  · exact h

/-! ### Tags and comments -/

/-- The beginning of a text is told by as much of it. -/
theorem take_append_append {n : Nat} {s a : List Char} (h : n ≤ s.length + a.length)
    (b b' : List Char) : (s ++ (a ++ b)).take n = (s ++ (a ++ b')).take n := by
  have enough : n ≤ (s ++ a).length := by simpa using h
  rw [← List.append_assoc, ← List.append_assoc, List.take_append_of_le_length enough,
    List.take_append_of_le_length enough]

theorem startsCommentEnd_eq (cs : List Char) :
    startsCommentEnd cs = decide (cs.take 3 = ['-', '-', '>']) := by
  unfold startsCommentEnd
  split
  · simp
  · rename_i no
    refine (decide_eq_false fun e => ?_).symm
    match cs, e with
    | _ :: _ :: _ :: rest, e =>
      obtain ⟨rfl, rfl, rfl⟩ : _ = '-' ∧ _ = '-' ∧ _ = '>' := by simpa using e
      exact no rest rfl

/-- A comment ends with itself. -/
theorem scanComment_append {inner : List Char} (h : scanComment cs = .ok (inner, rest))
    (rest' : List Char) :
    scanComment ((Item.comment inner).print ++ rest') = .ok (inner, rest') := by
  unfold scanComment at h
  split at h
  · rename_i s r hs
    obtain ⟨rfl, rfl⟩ : s = inner ∧ r = rest := by simpa using h
    have span : spanUntil startsCommentEnd (s ++ '-' :: '-' :: '>' :: rest') =
        (s, '-' :: '-' :: '>' :: rest') := by
      refine spanUntil_of_append hs (fun t ht => ?_) (.inr rfl)
      have pos := List.length_pos_iff.2 ht
      have same : (t ++ '-' :: '-' :: '>' :: r).take 3 = (t ++ '-' :: '-' :: '>' :: rest').take 3 :=
        take_append_append (a := ['-', '-', '>']) (by simp) r rest'
      rw [startsCommentEnd_eq, startsCommentEnd_eq, same]
    simp [scanComment, Item.print, span]
  · simp at h

theorem exists_of_scanEndTag {tag : EndTag} (h : scanEndTag cs = .ok (tag, rest)) :
    ∃ tail, spanUntil endsTagName (cs.drop 2) = (tag.name, tail) ∧
      blanks tail = (tag.gap, '>' :: rest) := by
  unfold scanEndTag at h
  obtain ⟨name, tail, hn⟩ : ∃ name tail, spanUntil endsTagName (cs.drop 2) = (name, tail) :=
    ⟨_, _, rfl⟩
  rw [hn] at h
  dsimp only at h
  split at h
  · rename_i gap r hb
    obtain ⟨rfl, rfl⟩ : ⟨name, gap⟩ = tag ∧ r = rest := by simpa using h
    exact ⟨tail, hn, hb⟩
  · simp at h

/-- An end tag ends with itself. -/
theorem scanEndTag_append {tag : EndTag} (h : scanEndTag cs = .ok (tag, rest))
    (rest' : List Char) :
    scanEndTag (tag.print ++ rest') = .ok (tag, rest') := by
  obtain ⟨tail, hn, hb⟩ := exists_of_scanEndTag h
  have split : (blanks tail).1 ++ (blanks tail).2 = tail := spanUntil_append startsInk tail
  have close : peek ('>' :: rest) = peek ('>' :: rest') := by
    rw [peek_cons_of_ink (by decide), peek_cons_of_ink (by decide)]
    rfl
  have same : peek tail = peek (tag.gap ++ '>' :: rest') := by
    rw [← split, hb]
    exact peek_append close tag.gap
  have span := spanUntil_of_peek (fun _ _ => endsTagName_of_peek) hn same
  have blank : blanks (tag.gap ++ '>' :: rest') = (tag.gap, '>' :: rest') :=
    blanks_append (by simpa [hb] using all_isBlank_blanks tail) rfl
  simp [scanEndTag, EndTag.print, span, blank]

theorem exists_of_scanStartTag {tag : StartTag} (h : scanStartTag cs = .ok (tag, rest)) :
    ∃ tail, spanUntil endsTagName (cs.drop 1) = (tag.name, tail) ∧
      scanParts cs tail = .ok (tag.parts, tag.selfClosing, rest) := by
  unfold scanStartTag at h
  obtain ⟨name, tail, hn⟩ : ∃ name tail, spanUntil endsTagName (cs.drop 1) = (name, tail) :=
    ⟨_, _, rfl⟩
  rw [hn] at h
  dsimp only at h
  cases hp : scanParts cs tail with
  | error e => simp [hp] at h
  | ok r =>
    obtain ⟨parts, closed, r⟩ := r
    obtain ⟨rfl, rfl⟩ : ⟨name, parts, closed⟩ = tag ∧ r = rest := by simpa [hp] using h
    exact ⟨tail, hn, hp⟩

/-- A start tag that is read as itself, whatever comes after it. -/
def StartTag.Stable (tag : StartTag) : Prop :=
  ∀ rest, scanStartTag (tag.print ++ rest) = .ok (tag, rest)

/-- A start tag ends with itself, and so it does with other attributes that stand for its own. -/
theorem stable_of_revised {tag : StartTag} {parts : List TagPart}
    (h : scanStartTag cs = .ok (tag, rest))
    (revised : Revised tag.selfClosing rest tag.parts parts) :
    StartTag.Stable { tag with parts } := by
  intro rest'
  obtain ⟨tail, hn, hp⟩ := exists_of_scanStartTag h
  obtain ⟨name, parts₀, closed⟩ := tag
  have print : (StartTag.mk name parts closed).print ++ rest' =
      '<' :: (name ++ printParts parts closed rest') := by
    simp only [StartTag.print, StartTag.closing, printParts, List.cons_append, List.append_assoc]
  obtain ⟨read, same⟩ :=
    scanParts_revised hp revised ('<' :: (name ++ printParts parts closed rest')) rest'
  have span := spanUntil_of_peek (fun _ _ => endsTagName_of_peek) hn same
  rw [print]
  simp [scanStartTag, span, read]

/-! ### Where an item begins -/

theorem startsComment_eq (cs : List Char) :
    startsComment cs = decide (cs.take 4 = ['<', '!', '-', '-']) := by
  unfold startsComment
  split
  · simp
  · rename_i no
    refine (decide_eq_false fun e => ?_).symm
    match cs, e with
    | _ :: _ :: _ :: _ :: rest, e =>
      obtain ⟨rfl, rfl, rfl, rfl⟩ : _ = '<' ∧ _ = '!' ∧ _ = '-' ∧ _ = '-' := by simpa using e
      exact no rest rfl

theorem startsEndTag_eq (cs : List Char) :
    startsEndTag cs = (decide (cs.take 2 = ['<', '/']) && startsName (cs.drop 2)) := by
  unfold startsEndTag
  split
  · simp
  · rename_i no
    refine (Bool.and_eq_false_iff.2 (.inl (decide_eq_false fun e => ?_))).symm
    match cs, e with
    | _ :: _ :: rest, e =>
      obtain ⟨rfl, rfl⟩ : _ = '<' ∧ _ = '/' := by simpa using e
      exact no rest rfl

theorem startsStartTag_cons (c : Char) (cs : List Char) :
    startsStartTag (c :: cs) = (c == '<' && startsName cs) := by
  unfold startsStartTag
  split
  · rename_i rest e
    obtain ⟨rfl, rfl⟩ := List.cons.inj e
    simp
  · rename_i no
    have ne : c ≠ '<' := by
      rintro rfl
      exact no cs rfl
    simp [ne]

/-- Whether an item other than text begins at a character is not told by what comes after the
next `<`. -/
theorem startsMarkup_append (c : Char) (s : List Char) (r r' : List Char) :
    startsMarkup (c :: s ++ '<' :: r) = startsMarkup (c :: s ++ '<' :: r') := by
  unfold startsMarkup
  rw [startsComment_eq, startsComment_eq, startsEndTag_eq, startsEndTag_eq, List.cons_append,
    List.cons_append, startsStartTag_cons, startsStartTag_cons]
  -- a comment begins with four characters, and `<` is none of the last three
  match s with
  | [] => simp [startsName]
  | [d] => simp [startsName]
  | [d, e] => simp [startsName]
  | d :: e :: f :: s => simp [startsName]

theorem startsMarkup_of_endTag (h : startsEndTag cs = true) : startsMarkup cs = true := by
  simp [startsMarkup, h]

theorem startsMarkup_of_startTag (h : startsStartTag cs = true) : startsMarkup cs = true := by
  simp [startsMarkup, h]

theorem startsMarkup_head (h : startsMarkup cs = true) : ∃ r, cs = '<' :: r := by
  simp only [startsMarkup, Bool.or_eq_true] at h
  rcases h with (h | h) | h
  · obtain ⟨r, rfl⟩ := startsComment_iff.1 h
    exact ⟨_, rfl⟩
  · obtain ⟨r, rfl⟩ := startsEndTag_head h
    exact ⟨_, rfl⟩
  · exact startsStartTag_head h

/-- Texts that begin with the same character, and both or neither with an item other than
text. -/
structure BeginAlike (cs ds : List Char) : Prop where
  head : ds.head? = cs.head?
  markup : startsMarkup ds = startsMarkup cs

/-- A text ends where it did, if what comes after it begins alike. -/
theorem startsMarkup_of_beginAlike {s : List Char} (hs : s ≠ [])
    (h : rest = [] ∨ startsMarkup rest = true) (alike : BeginAlike rest rest') :
    startsMarkup (s ++ rest) = startsMarkup (s ++ rest') := by
  obtain ⟨c, s, rfl⟩ := List.exists_cons_of_ne_nil hs
  rcases h with rfl | h
  · rw [List.head?_eq_none_iff.1 alike.head]
  · obtain ⟨r, rfl⟩ := startsMarkup_head h
    obtain ⟨r', rfl⟩ := startsMarkup_head (alike.markup.trans h)
    exact startsMarkup_append c s r r'

/-! ### Items -/

theorem startsName_eq (cs : List Char) : startsName cs = cs.head?.any Char.isAlpha := by
  cases cs <;> rfl

theorem scanItem_of_comment {c : Char} {inner : List Char} (starts : startsComment (c :: cs) = true)
    (h : scanComment (c :: cs) = .ok (inner, rest)) :
    scanItem c cs = .ok (.comment inner, rest) := by
  simp [scanItem, starts, h]

theorem scanItem_of_endTag {c : Char} {tag : EndTag} (starts : startsEndTag (c :: cs) = true)
    (h : scanEndTag (c :: cs) = .ok (tag, rest)) : scanItem c cs = .ok (.close tag, rest) := by
  have no : startsComment (c :: cs) = false := by
    obtain ⟨r, hr⟩ := startsEndTag_head starts
    rw [startsComment_eq, hr]
    simp
  simp [scanItem, no, starts, h]

theorem scanItem_of_startTag {c : Char} {tag : StartTag}
    (starts : startsStartTag (c :: cs) = true) (h : scanStartTag (c :: cs) = .ok (tag, rest)) :
    scanItem c cs = .ok (.start tag, rest) := by
  have letter := starts
  rw [startsStartTag_cons, Bool.and_eq_true, beq_iff_eq] at letter
  obtain ⟨rfl, named⟩ := letter
  cases cs with
  | nil => simp [startsName] at named
  | cons x cs =>
    have apart : x ≠ '!' ∧ x ≠ '/' := by
      constructor <;> rintro rfl <;> simp [startsName] at named
    have no : startsComment ('<' :: x :: cs) = false := by simp [startsComment_eq, apart]
    have no' : startsEndTag ('<' :: x :: cs) = false := by simp [startsEndTag_eq, apart]
    simp [scanItem, no, no', starts, h]

theorem scanItem_of_text {c : Char} {s : List Char} (no : startsMarkup (c :: cs) = false)
    (h : spanUntil startsMarkup cs = (s, rest)) : scanItem c cs = .ok (.text (c :: s), rest) := by
  simp only [startsMarkup, Bool.or_eq_false_iff] at no
  simp [scanItem, no, h]

/-- What an item is and how it was read. -/
theorem scanItem_cases {c : Char} {item : Item} (h : scanItem c cs = .ok (item, rest)) :
    (∃ inner, item = .comment inner ∧ startsComment (c :: cs) = true ∧
      scanComment (c :: cs) = .ok (inner, rest)) ∨
    (∃ tag, item = .close tag ∧ startsEndTag (c :: cs) = true ∧
      scanEndTag (c :: cs) = .ok (tag, rest)) ∨
    (∃ tag, item = .start tag ∧ startsStartTag (c :: cs) = true ∧
      scanStartTag (c :: cs) = .ok (tag, rest)) ∨
    ∃ s, item = .text (c :: s) ∧ startsMarkup (c :: cs) = false ∧
      spanUntil startsMarkup cs = (s, rest) := by
  unfold scanItem at h
  split at h
  · rename_i starts
    cases hs : scanComment (c :: cs) with
    | error e => simp [hs] at h
    | ok r =>
      obtain ⟨inner, r⟩ := r
      obtain ⟨rfl, rfl⟩ : .comment inner = item ∧ r = rest := by simpa [hs] using h
      exact .inl ⟨inner, rfl, starts, rfl⟩
  · split at h
    · rename_i no starts
      cases hs : scanEndTag (c :: cs) with
      | error e => simp [hs] at h
      | ok r =>
        obtain ⟨tag, r⟩ := r
        obtain ⟨rfl, rfl⟩ : .close tag = item ∧ r = rest := by simpa [hs] using h
        exact .inr (.inl ⟨tag, rfl, starts, rfl⟩)
    · split at h
      · rename_i no no' starts
        cases hs : scanStartTag (c :: cs) with
        | error e => simp [hs] at h
        | ok r =>
          obtain ⟨tag, r⟩ := r
          obtain ⟨rfl, rfl⟩ : .start tag = item ∧ r = rest := by simpa [hs] using h
          exact .inr (.inr (.inl ⟨tag, rfl, starts, rfl⟩))
      · rename_i no no' no''
        obtain ⟨rfl, rfl⟩ : Item.text (c :: (spanUntil startsMarkup cs).1) = item ∧
            (spanUntil startsMarkup cs).2 = rest := by simpa using h
        exact .inr (.inr (.inr ⟨_, rfl, by simp [startsMarkup, no, no', no''], rfl⟩))

/-- The name of a start tag begins with a letter. -/
theorem name_of_scanStartTag {c : Char} {tag : StartTag} (starts : startsStartTag (c :: cs) = true)
    (h : scanStartTag (c :: cs) = .ok (tag, rest)) :
    ∃ x name, tag.name = x :: name ∧ x.isAlpha = true := by
  rw [startsStartTag_cons, Bool.and_eq_true] at starts
  cases cs with
  | nil => simp [startsName] at starts
  | cons x cs =>
    have letter : x.isAlpha = true := starts.2
    obtain ⟨tail, hn, -⟩ := exists_of_scanStartTag h
    have named : tag.name = (spanUntil endsTagName (x :: cs)).1 := (congrArg Prod.fst hn).symm
    refine ⟨x, (spanUntil endsTagName cs).1, ?_, letter⟩
    rw [named, spanUntil, if_neg (by simp [endsTagName_of_isAlpha letter])]

/-- Items that are the same, or start tags of one name that both close themselves or not, the second
of which is read as itself. -/
inductive Item.Revises : Item → Item → Prop
  | comment (inner : List Char) : Revises (.comment inner) (.comment inner)
  | text (cs : List Char) : Revises (.text cs) (.text cs)
  | close (tag : EndTag) : Revises (.close tag) (.close tag)
  | start {tag : StartTag} {parts : List TagPart} (stable : StartTag.Stable { tag with parts }) :
      Revises (.start tag) (.start { tag with parts })

/-- **An item is read as the revised one where that stands**, if it is no text or what comes after
it begins alike. -/
theorem scanItem_revised {c : Char} {item item' : Item} (h : scanItem c cs = .ok (item, rest))
    (revised : item.Revises item') (alike : ∀ s, item = .text s → BeginAlike rest rest') :
    ∃ d ds, item'.print ++ rest' = d :: ds ∧ scanItem d ds = .ok (item', rest') ∧
      BeginAlike (c :: cs) (d :: ds) := by
  have printed := scanItem_print h
  rcases scanItem_cases h with ⟨inner, rfl, starts, hs⟩ | ⟨tag, rfl, starts, hs⟩ |
    ⟨tag, rfl, starts, hs⟩ | ⟨s, rfl, goes, hs⟩
  · cases revised
    refine ⟨_, _, rfl, scanItem_of_comment rfl (scanComment_append hs rest'), ?_, ?_⟩
    · rw [← printed]; rfl
    · exact Eq.symm (by rw [startsMarkup, starts]; rfl)
  · cases revised
    have starts' : startsEndTag (tag.print ++ rest') = true := by
      rw [← printed, startsEndTag_eq] at starts
      have named : startsName ((tag.print ++ rest).drop 2) = true :=
        (Bool.and_eq_true_iff.1 starts).2
      change startsName ((tag.print ++ rest').drop 2) = true
      rw [startsName_eq] at named ⊢
      simpa [EndTag.print] using named
    refine ⟨_, _, rfl, scanItem_of_endTag starts' (scanEndTag_append hs rest'), ?_, ?_⟩
    · rw [← printed]; rfl
    · exact (startsMarkup_of_endTag starts').trans (startsMarkup_of_endTag starts).symm
  · obtain ⟨x, name, named, letter⟩ := name_of_scanStartTag starts hs
    obtain ⟨parts, stable, rfl⟩ : ∃ parts, StartTag.Stable { tag with parts } ∧
        item' = .start { tag with parts } := by
      cases revised with | start stable => exact ⟨_, stable, rfl⟩
    have starts' : startsStartTag ((StartTag.mk tag.name parts tag.selfClosing).print ++ rest') =
        true := by
      change startsName ((tag.name ++ _ ++ _) ++ rest') = true
      rw [named]
      exact letter
    refine ⟨_, _, rfl, scanItem_of_startTag starts' (stable rest'), ?_, ?_⟩
    · rw [← printed]; rfl
    · exact (startsMarkup_of_startTag starts').trans (startsMarkup_of_startTag starts).symm
  · cases revised
    have alike := alike _ rfl
    have stops : rest = [] ∨ startsMarkup rest = true := by
      simpa [hs] using spanUntil_rest startsMarkup cs
    have split : s ++ rest = cs := by simpa [hs] using spanUntil_append startsMarkup cs
    -- no item begins within the text, whatever comes after it
    have span : spanUntil startsMarkup (s ++ rest') = (s, rest') := by
      refine spanUntil_of_append hs (fun s hs => startsMarkup_of_beginAlike hs stops alike) ?_
      rcases stops with rfl | starts
      · exact .inl (List.head?_eq_none_iff.1 alike.head)
      · exact .inr (alike.markup.trans starts)
    have goes' : startsMarkup (c :: (s ++ rest')) = false := by
      have same := startsMarkup_of_beginAlike (s := c :: s) (by simp) stops alike
      rw [List.cons_append, split] at same
      exact same.symm.trans goes
    refine ⟨c, _, rfl, scanItem_of_text goes' span, rfl, ?_⟩
    rw [goes]
    exact goes'

/-! ### Raw text -/

theorem isAlpha_of_rawText {name : List Char} (h : isNamed rawTextElements name = true) :
    name ≠ [] ∧ ∀ c ∈ name, c.isAlpha = true := by
  simp only [isNamed, List.any_eq_true, beq_iff_eq] at h
  obtain ⟨n, hn, same⟩ := h
  have letters : n.toList ≠ [] ∧ n.toList.all Char.isAlpha = true := by
    simp only [rawTextElements, List.mem_cons, List.not_mem_nil, or_false] at hn
    rcases hn with rfl | rfl | rfl | rfl <;> decide
  rw [same] at letters
  constructor
  · rintro rfl
    exact letters.1 rfl
  · intro c hc
    exact isAlpha_of_toLower (List.all_eq_true.1 letters.2 _ (List.mem_map_of_mem hc))

/-- A text begins with what it is folded equal to. -/
theorem lower_take_of_startsFolded {head : List Char} (h : startsFolded head cs = true) :
    lower (cs.take head.length) = lower head := by
  obtain ⟨t, ht⟩ := List.isPrefixOf_iff_prefix.1 h
  have size := congrArg List.length ht
  simp only [lower, List.length_append, List.length_map, List.length_take] at size
  have none : t = [] := List.length_eq_zero_iff.1 (by omega)
  rw [← ht, none, List.append_nil]

/-- Letters that a tag name begins with are part of it. -/
theorem prefix_of_isAlpha {s : List Char} (h : ∀ c ∈ s, c.isAlpha = true) (cs : List Char) :
    s <+: (spanUntil endsTagName (s ++ cs)).1 := by
  induction s with
  | nil => exact List.nil_prefix
  | cons c s ih =>
    have goes := endsTagName_of_isAlpha (h c List.mem_cons_self) (s ++ cs)
    have rest := ih fun d hd => h d (List.mem_cons_of_mem c hd)
    simpa [spanUntil, goes] using rest

/-- Where raw text ends an end tag begins, and its name begins with that of the element. -/
theorem close_of_startsFolded {name : List Char} (raw : isNamed rawTextElements name = true)
    {c : Char} (h : startsFolded ('<' :: '/' :: name) (c :: cs) = true) {item : Item}
    (hi : scanItem c cs = .ok (item, rest)) :
    ∃ tag, item = .close tag ∧ lower name <+: lower tag.name := by
  have low := lower_take_of_startsFolded h
  cases cs with
  | nil => simp [lower] at low
  | cons d cs =>
    obtain ⟨hc, hd, hn⟩ : c.toLower = '<' ∧ d.toLower = '/' ∧ lower (cs.take name.length) =
        lower name := by simpa [lower] using low
    -- folding moves letters only
    obtain rfl := eq_of_toLower_eq hc (by decide)
    obtain rfl := eq_of_toLower_eq hd (by decide)
    have raw' : isNamed rawTextElements (cs.take name.length) = true := by
      rwa [isNamed, hn]
    obtain ⟨ne, letters⟩ := isAlpha_of_rawText raw'
    have starts : startsEndTag ('<' :: '/' :: cs) = true := by
      cases cs with
      | nil => simp at ne
      | cons x cs =>
        refine letters x ?_
        cases hl : name.length with
        | zero => simp [hl] at ne
        | succ n => simp
    have no : startsComment ('<' :: '/' :: cs) = false := by simp [startsComment_eq]
    rcases scanItem_cases hi with ⟨_, -, starts', -⟩ | ⟨tag, rfl, -, hs⟩ | ⟨_, -, starts', -⟩ |
      ⟨_, -, goes, -⟩
    · simp [no] at starts'
    · refine ⟨tag, rfl, ?_⟩
      obtain ⟨tail, named, -⟩ := exists_of_scanEndTag hs
      have named : tag.name = (spanUntil endsTagName cs).1 := (congrArg Prod.fst named).symm
      have begins := prefix_of_isAlpha letters (cs.drop name.length)
      rw [List.take_append_drop, ← named] at begins
      rw [← hn]
      exact begins.map Char.toLower
    · simp [startsStartTag, startsName] at starts'
    · simp [startsMarkup_of_endTag starts] at goes

theorem take_append_of_take {n : Nat} {a b : List Char} (h : a.take n = b.take n)
    (s : List Char) : (s ++ a).take n = (s ++ b).take n := by
  have shorter := congrArg (List.take (n - s.length)) h
  rw [List.take_take, List.take_take, Nat.min_eq_left (Nat.sub_le _ _)] at shorter
  rw [List.take_append, List.take_append, shorter]

/-- The raw text of an item is what it was, if the end tag after it is. -/
theorem rawText_revised {item item' : Item} {raw tail tail' : List Char}
    (h : item.rawText rest = (raw, tail)) (revised : item.Revises item')
    (none : tail = [] → tail' = [])
    (same : ∀ tag, item = .start tag → tag.hasRawText = true →
      tail.take (tag.name.length + 2) = tail'.take (tag.name.length + 2)) :
    item'.rawText (raw ++ tail') = (raw, tail') := by
  cases revised with
  | comment | text | close =>
    obtain ⟨rfl, -⟩ : [] = raw ∧ rest = tail := by simpa [Item.rawText] using h
    rfl
  | @start tag parts stable =>
    have raw' : StartTag.hasRawText { tag with parts } = tag.hasRawText := rfl
    by_cases hasRaw : tag.hasRawText = true
    · have same := same tag rfl hasRaw
      have told : ∀ s, startsFolded ('<' :: '/' :: tag.name) (s ++ tail) =
          startsFolded ('<' :: '/' :: tag.name) (s ++ tail') := fun s => by
        have begin' : (s ++ tail).take ('<' :: '/' :: tag.name).length =
            (s ++ tail').take ('<' :: '/' :: tag.name).length := take_append_of_take same s
        rw [startsFolded, startsFolded, begin']
      simp only [Item.rawText, if_pos hasRaw] at h
      simp only [Item.rawText, raw', if_pos hasRaw]
      refine spanUntil_of_append h (fun s _ => told s) ?_
      rcases spanUntil_rest (startsFolded ('<' :: '/' :: tag.name)) rest with e | e
      · rw [h] at e
        exact .inl (none e)
      · rw [h] at e
        exact .inr ((told []).symm.trans e)
    · obtain ⟨rfl, -⟩ : [] = raw ∧ rest = tail := by simpa [Item.rawText, hasRaw] using h
      simp [Item.rawText, raw', hasRaw]

/-! ### Templates -/

theorem scan_nil : scan [] = .ok [] := by rw [scan]

/-- An item is scanned with its raw text, and then what comes after it. -/
theorem scan_cons_eq {c : Char} {item : Item} (hi : scanItem c cs = .ok (item, rest)) :
    scan (c :: cs) = (scan (item.rawText rest).2).map
      ((item :: text? (item.rawText rest).1) ++ ·) := by
  rw [scan]
  split
  · rename_i i r hr
    obtain ⟨rfl, rfl⟩ : i = item ∧ r = rest := by simpa [hi] using hr.symm
    cases scan (i.rawText r).2 <;> rfl
  · rename_i e hr
    simp [hi] at hr

theorem scan_cons {c : Char} {item : Item} {items : List Item}
    (hi : scanItem c cs = .ok (item, rest)) (hs : scan (item.rawText rest).2 = .ok items) :
    scan (c :: cs) = .ok (item :: text? (item.rawText rest).1 ++ items) := by
  rw [scan_cons_eq hi, hs]
  rfl

theorem exists_of_scan_cons {c : Char} {items : List Item} (h : scan (c :: cs) = .ok items) :
    ∃ item rest more, scanItem c cs = .ok (item, rest) ∧ items = item :: more := by
  rw [scan] at h
  split at h
  · rename_i item rest hi
    split at h
    · exact ⟨item, rest, _, hi, (Except.ok.inj h).symm⟩
    · simp at h
  · simp at h

theorem print_text? (raw : List Char) : (text? raw).flatMap Item.print = raw := by
  unfold text?
  split
  · rename_i h
    simp [List.isEmpty_iff.1 h]
  · simp [Item.print]

/-- Items after raw text, revised. -/
theorem exists_of_revises_text? {raw : List Char} {more items' : List Item}
    (h : List.Forall₂ Item.Revises (text? raw ++ more) items') :
    ∃ more', items' = text? raw ++ more' ∧ List.Forall₂ Item.Revises more more' := by
  have none : text? raw = [] ∨ text? raw = [.text raw] := by
    unfold text?
    split <;> simp
  rcases none with empty | full
  · rw [empty] at h ⊢
    exact ⟨items', rfl, h⟩
  · rw [full] at h ⊢
    obtain ⟨_, more', ⟨⟩, later, rfl⟩ := List.forall₂_cons_left_iff.1 h
    exact ⟨more', rfl, later⟩

/-- The end tag after raw text is written as it was. -/
theorem take_of_rawText {tag : StartTag} {raw tail : List Char} {more more' : List Item}
    (h : (Item.start tag).rawText rest = (raw, tail)) (hasRaw : tag.hasRawText = true)
    (hm : scan tail = .ok more) (revised : List.Forall₂ Item.Revises more more') :
    tail.take (tag.name.length + 2) =
      (more'.flatMap Item.print).take (tag.name.length + 2) := by
  cases tail with
  | nil =>
    obtain rfl : [] = more := by simpa [scan_nil] using hm
    cases revised
    rfl
  | cons c cs =>
    obtain ⟨item, rest', more, hi, rfl⟩ := exists_of_scan_cons hm
    have stops : startsFolded ('<' :: '/' :: tag.name) (c :: cs) = true := by
      simp only [Item.rawText, if_pos hasRaw] at h
      simpa [h] using spanUntil_rest (startsFolded ('<' :: '/' :: tag.name)) rest
    obtain ⟨close, rfl, begins⟩ := close_of_startsFolded (Bool.and_eq_true_iff.1 hasRaw).2 stops hi
    obtain ⟨_, more', ⟨⟩, -, rfl⟩ := List.forall₂_cons_left_iff.1 revised
    have shorter : tag.name.length ≤ close.name.length := by simpa [lower] using begins.length_le
    have long : tag.name.length + 2 ≤ (Item.close close).print.length := by
      simp only [Item.print, EndTag.print, List.length_append, List.length_cons]
      omega
    rw [← scanItem_print hi, List.flatMap_cons]
    exact take_append_append (s := []) (by simpa using long) _ _

/-- **A template with other start tags is read as the items with these.** -/
theorem scan_revised {items items' : List Item} (h : scan cs = .ok items)
    (revised : List.Forall₂ Item.Revises items items') :
    scan (items'.flatMap Item.print) = .ok items' ∧
      BeginAlike cs (items'.flatMap Item.print) := by
  -- on the items, last first: how a text and raw text end depends on what is read after them
  fun_induction scan cs generalizing items items' with
  | case1 =>
    obtain rfl : [] = items := by simpa using h
    cases revised
    exact ⟨scan_nil, rfl, rfl⟩
  | case2 c cs item rest hi more hm ih =>
    obtain rfl : item :: text? (item.rawText rest).1 ++ more = items := by simpa using h
    obtain ⟨item', _, first, behind, rfl⟩ := List.forall₂_cons_left_iff.1 revised
    obtain ⟨more', rfl, later⟩ := exists_of_revises_text? behind
    obtain ⟨read, alike⟩ := ih hm later
    obtain ⟨raw, tail, hr⟩ : ∃ raw tail, item.rawText rest = (raw, tail) := ⟨_, _, rfl⟩
    rw [hr] at hm alike ⊢
    have raw' : item'.rawText (raw ++ more'.flatMap Item.print) =
        (raw, more'.flatMap Item.print) := by
      refine rawText_revised hr first ?_ ?_
      · rintro rfl
        exact List.head?_eq_none_iff.1 alike.head
      · rintro tag rfl hasRaw
        exact take_of_rawText hr hasRaw hm later
    have alike' : ∀ s, item = .text s → BeginAlike rest (raw ++ more'.flatMap Item.print) := by
      rintro s rfl
      obtain ⟨rfl, rfl⟩ : [] = raw ∧ rest = tail := by simpa [Item.rawText] using hr
      exact alike
    obtain ⟨d, ds, printed, reads, begins⟩ := scanItem_revised hi first alike'
    have whole : (item' :: (text? raw ++ more')).flatMap Item.print = d :: ds := by
      rw [← printed]
      simp [print_text?]
    rw [whole]
    refine ⟨?_, begins⟩
    rw [scan_cons reads (by rw [raw']; exact read), raw']
    rfl
  | case3 => simp at h
  | case4 => simp at h

/-- The start tags of a template are read where they stand. -/
theorem exists_scanStartTag {before after : List Item} {tag : StartTag}
    (h : scan cs = .ok (before ++ .start tag :: after)) :
    ∃ ds, scanStartTag ds = .ok (tag, after.flatMap Item.print) := by
  generalize hs : before ++ .start tag :: after = items at h
  fun_induction scan cs generalizing items before with
  | case1 =>
    obtain rfl : [] = items := by simpa using h
    simp at hs
  | case2 c cs item rest hi more hm ih =>
    obtain rfl : item :: text? (item.rawText rest).1 ++ more = items := by simpa using h
    cases before with
    | nil =>
      obtain ⟨rfl, rfl⟩ := List.cons.inj hs
      have printed :
          (text? ((Item.start tag).rawText rest).1 ++ more).flatMap Item.print = rest := by
        rw [List.flatMap_append, print_text?, scan_print hm, Item.rawText_append]
      rcases scanItem_cases hi with ⟨_, e, -⟩ | ⟨_, e, -⟩ | ⟨_, e, -, hs⟩ | ⟨_, e, -⟩
      · simp at e
      · simp at e
      · obtain rfl := Item.start.inj e
        exact ⟨_, printed ▸ hs⟩
      · simp at e
    | cons i before =>
      obtain ⟨-, hs⟩ := List.cons.inj hs
      unfold text? at hs
      split at hs
      · exact ih more hs hm
      · cases before with
        | nil => simp at hs
        | cons j before => exact ih more (List.cons.inj hs).2 hm
  | case3 => simp at h
  | case4 => simp at h

/-- **A rebound template is read as the rebound items.** -/
theorem scan_rebind (hg : Squeezes squeeze) {items : List Item} (h : scan cs = .ok items) :
    scan ((items.map (Item.rebind squeeze)).flatMap Item.print) =
        .ok (items.map (Item.rebind squeeze)) ∧
      BeginAlike cs ((items.map (Item.rebind squeeze)).flatMap Item.print) := by
  refine scan_revised h (List.forall₂_map_right_iff.2 (List.forall₂_same.2 fun item mem => ?_))
  cases item with
  | comment inner => exact .comment inner
  | text cs => exact .text cs
  | close tag => exact .close tag
  | start tag =>
    obtain ⟨before, after, rfl⟩ := List.append_of_mem mem
    obtain ⟨ds, read⟩ := exists_scanStartTag h
    exact .start (stable_of_revised read (revised_rebind hg _ _ _))

end SyntaxLint.Template
