import SyntaxLint.Fixing.Formatter
import SyntaxLint.Proofs.Template.Reported
import SyntaxLint.Proofs.Tree.Edit
import SyntaxLint.Proofs.Tree.Refit
import SyntaxLint.Proofs.Tree.Spliced

/-!
# Proofs — Fixing — what the formatters do

Handed the range of a live node, a formatter changes blanks below the node and nothing else: a
blank that lies in the range but not below the node would have to be empty.

* `Tree.Regular`: the trees in which this holds.
* `Formatter.Spaces`: a formatter gives blanks below a node new texts.
* `Formatter.spaces_idle`, `Formatter.spaces_whitespace`: so do the two formatters.
-/

namespace SyntaxLint

open Template

theorem Content.width_pos_of_text_ne {c : Content} (full : c.text ≠ "") : 0 < c.width := by
  rw [width_eq, Nat.pos_iff_ne_zero]
  exact fun e => full (String.utf8ByteSize_eq_zero_iff.1 e)

/-! ### Regular trees -/

/-- Distinct identities, names that are leaves, and blanks that are leaves with a text. -/
structure Tree.Regular (t : Tree) : Prop where
  numbered : t.Numbered
  name : ∀ n ∈ t.content.members, n.kind = .attributeName → n.body.isLeaf = true
  blank : ∀ n ∈ t.content.members, n.kind = .whitespace →
    n.body.isLeaf = true ∧ n.body.text ≠ ""

namespace Tree

variable {t : Tree} {h : Node → Option String} {n : Node} {p b : Placed}

theorem retext_of_none (none : ∀ n ∈ t.content.members, h n = none) : t.retext h = t :=
  eq_of_content (Content.retext_of_none none) rfl

theorem toNode_mem (hp : p ∈ t.nodes) : p.toNode ∈ t.content.members :=
  Content.toNode_mem_members hp

/-- Where identities are distinct, a node is the only one of its identity. -/
theorem Numbered.eq_of_mem_members (ht : t.Numbered) {m : Node} (hn : n ∈ t.content.members)
    (hm : m ∈ t.content.members) (e : n.id = m.id) : n = m :=
  Content.eq_of_mem_members ht.nodup hn hm e

/-- A node of a tree stands somewhere. -/
theorem exists_placed (hn : n ∈ t.content.members) : ∃ p ∈ t.nodes, p.toNode = n :=
  Content.exists_mem_preorder_of_mem_members hn 0 none

/-- New texts for leaves, none of them empty, keep a tree regular. -/
theorem Regular.retext (ht : t.Regular)
    (leaves : ∀ n ∈ t.content.members, (h n).isSome → n.body.isLeaf)
    (full : ∀ n x, h n = some x → x ≠ "") : (t.retext h).Regular := by
  refine ⟨ht.numbered.retext h, fun n hn kind => ?_, fun n hn kind => ?_⟩
  · rw [content_retext, Content.members_retext leaves] at hn
    obtain ⟨m, hm, rfl⟩ := List.mem_map.1 hn
    rw [Node.isLeaf_retext (leaves m hm)]
    exact ht.name m hm kind
  · rw [content_retext, Content.members_retext leaves] at hn
    obtain ⟨m, hm, rfl⟩ := List.mem_map.1 hn
    obtain ⟨leaf, text⟩ := ht.blank m hm kind
    rw [Node.isLeaf_retext (leaves m hm), Node.text_retext_of_isLeaf leaf]
    refine ⟨leaf, ?_⟩
    cases e : h m with
    | none => exact text
    | some x => exact full m x e

theorem members_subset (hb : b ∈ t.nodes) : b.body.members ⊆ t.content.members := by
  intro m hm
  obtain ⟨p, hp, rfl⟩ := Content.exists_mem_preorder_of_mem_members hm b.start (some b.id)
  exact toNode_mem (Content.mem_preorder_of_mem_descendants hb hp)

/-- A new text for one leaf is for leaves only. -/
theorem Numbered.isLeaf_of_textAt (ht : t.Numbered) (hp : p ∈ t.nodes) (leaf : p.isLeaf = true)
    (x : String) : ∀ n ∈ t.content.members, (n.textAt p.id x).isSome → n.body.isLeaf := by
  intro n hn some
  have same : n.id = p.id := by
    by_contra ne
    simp [Node.textAt, ne] at some
  rwa [ht.eq_of_mem_members hn (toNode_mem hp) same]

/-- A node stands somewhere after leaves are given new texts. -/
theorem exists_placed_retext (leaves : ∀ n ∈ t.content.members, (h n).isSome → n.body.isLeaf)
    (hb : b ∈ t.nodes) : ∃ b' ∈ (t.retext h).nodes,
      b'.id = b.id ∧ b'.kind = b.kind ∧ b'.body.ids = b.body.ids := by
  have mem : b.toNode.retext h ∈ (t.retext h).content.members := by
    rw [content_retext, Content.members_retext leaves]
    exact List.mem_map_of_mem (toNode_mem hb)
  obtain ⟨b', hb', moved⟩ := exists_placed mem
  refine ⟨b', hb', by rw [moved]; rfl, by rw [moved]; rfl, ?_⟩
  rw [moved]
  exact Node.ids_retext (leaves _ (toNode_mem hb)) fun m hm => leaves m (members_subset hb hm)

/-- A live leaf is given a new text, if the source does not become too long. -/
theorem Numbered.replaceText_leaf (ht : t.Numbered) (hp : p ∈ t.nodes) (leaf : p.isLeaf = true)
    {text : String} (room : t.lengthWith p text < 2 ^ 32) : t.replaceText p.id text =
      .ok (t.retext (Node.textAt p.id text), ⟨p.start, p.start + text.utf8ByteSize⟩) :=
  replaceText_eq_ok_iff.2
    ⟨p, ht.node?_id hp, leaf, room, (alter_tail ht.nodup p.id text).symm, rfl⟩

/-- The length of the source once a node has a new text, told without subtraction. -/
theorem Numbered.lengthWith_add (ht : t.Numbered) (hp : p ∈ t.nodes) (text : String) :
    t.lengthWith p text + p.body.width = t.source.utf8ByteSize + text.utf8ByteSize := by
  have fits := Content.width_alter ht.nodup hp fun _ => .tail ""
  simp only [Content.width, String.utf8ByteSize_empty, Nat.add_zero] at fits
  rw [lengthWith, source, ← Content.width_eq]
  omega

theorem Numbered.length_textAt (ht : t.Numbered) (hp : p ∈ t.nodes) (text : String) :
    (t.retext (Node.textAt p.id text)).source.utf8ByteSize = t.lengthWith p text := by
  have grows := Content.width_alter ht.nodup hp fun _ => .tail text
  have length := ht.lengthWith_add hp text
  rw [source, ← Content.width_eq, ← alter_tail ht.nodup, content_alter]
  rw [source, ← Content.width_eq] at length
  simp only [Content.width] at grows
  omega

/-- The source becomes longer by at most one byte for each node whose new text may be one byte
longer than the old. -/
theorem length_retext_le {grows : Node → Bool}
    (bound : ∀ n ∈ t.content.members, ∀ x, h n = some x →
      x.utf8ByteSize ≤ n.body.width + (grows n).toNat) :
    (t.retext h).source.utf8ByteSize ≤
      t.source.utf8ByteSize + t.content.members.countP grows := by
  rw [source, source, ← Content.width_eq, ← Content.width_eq, content_retext]
  simpa using Content.width_retext_le (k := 1) (by simpa using bound)

/-- Leaves that are given texts no longer than theirs leave the source no longer. -/
theorem length_retext_le_of_le
    (shorter : ∀ n ∈ t.content.members, ∀ x, h n = some x → x.utf8ByteSize ≤ n.body.width) :
    (t.retext h).source.utf8ByteSize ≤ t.source.utf8ByteSize := by
  have bound : (t.retext h).source.utf8ByteSize ≤
      t.source.utf8ByteSize + t.content.members.countP fun _ => false := length_retext_le shorter
  simpa using bound

/-! ### Ranges of nodes -/

/-- A node with a text and nothing below it lies in the range of another only if it stands below
it. -/
theorem Numbered.encloses_iff (ht : t.Numbered) (hb : b ∈ t.nodes) (hp : p ∈ t.nodes)
    (ne : p ≠ b) (leaf : p.body.isLeaf = true) (text : p.body.text ≠ "") :
    b.span.encloses p.span = true ↔ p.id ∈ b.body.ids := by
  have wide : p.start < p.span.stop := by
    have := Content.width_pos_of_text_ne text
    simp only [Placed.span]
    omega
  simp only [Span.encloses, Bool.and_eq_true, decide_eq_true_eq]
  constructor
  · rintro ⟨first, last⟩
    obtain ⟨before, after, split, left, right⟩ := Content.preorder_split hb
    have mem : p ∈ before ++ b.preorder ++ after := split ▸ hp
    simp only [List.mem_append, Placed.preorder, List.mem_cons] at mem
    rcases mem with (mem | rfl | mem) | mem
    · rcases left p mem with ends | above
      · have : b.start ≤ p.start := first
        omega
      · rw [Placed.descendants, Content.preorder_of_isLeaf leaf] at above
        simp at above
    · exact absurd rfl ne
    · exact Content.id_mem_ids mem
    · have := right p mem
      omega
  · intro below
    exact Content.within (Content.mem_preorder_of_id_mem_ids ht.nodup hp hb below)

end Tree

/-! ### Formatters -/

namespace Formatter

variable {t : Tree} {b p : Placed} {space : String → Option String}

/-- A formatter that, handed the range of a node in a source that offsets reach, gives the blanks
below the node the texts that `space` has for them and does nothing else. -/
def Spaces (format : Formatter) (space : String → Option String) : Prop :=
  ∀ (t : Tree) (b : Placed), t.Regular → t.source.utf8ByteSize < 2 ^ 32 → b ∈ t.nodes →
    b.kind ≠ .whitespace → format t b.span = ⟨t.retext fun n =>
      if n.kind = .whitespace ∧ n.id ∈ b.body.ids then space n.body.text else none, []⟩

/-- The idle formatter changes nothing. -/
theorem spaces_idle : idle.Spaces fun _ => none := by
  intro t b _ _ _ _
  rw [Tree.retext_of_none fun n _ => by simp]
  rfl

/-- What white space becomes: one space, unless it is one or breaks a line. -/
def oneSpace (s : String) : Option String :=
  if s != " " && s.toList.all fun c => c != '\n' && c != '\r' then some " " else none

/-- The tokens that are changed when one space is made of a list of leaves.  None is empty, so the
source never becomes longer. -/
theorem foldl_toSpace (ht : t.Numbered) (short : t.source.utf8ByteSize < 2 ^ 32)
    (ids : List NodeId)
    (leaves : ∀ n ∈ t.content.members, n.id ∈ ids → n.body.isLeaf = true ∧ n.body.text ≠ "")
    (alive : ∀ id ∈ ids, id ∈ t.content.ids) (refused : List TreeError) :
    ids.foldl toSpace ⟨t, refused⟩ =
      ⟨t.retext fun n => if n.id ∈ ids then some " " else none, refused⟩ := by
  induction ids generalizing t with
  | nil => rw [Tree.retext_of_none fun n _ => by simp]; rfl
  | cons id ids ih =>
    obtain ⟨p, hp, rfl⟩ := Content.exists_mem_preorder (alive id List.mem_cons_self) 0 none
    obtain ⟨leaf, full⟩ : p.isLeaf = true ∧ p.body.text ≠ "" :=
      leaves _ (Tree.toNode_mem hp) List.mem_cons_self
    have room : t.lengthWith p " " ≤ t.source.utf8ByteSize := by
      have length := ht.lengthWith_add hp " "
      have wide := Content.width_pos_of_text_ne full
      rw [show " ".utf8ByteSize = 1 from rfl] at length
      omega
    have first : toSpace ⟨t, refused⟩ p.id =
        ⟨t.retext (Node.textAt p.id " "), refused⟩ := by
      simp only [toSpace, ht.replaceText_leaf hp leaf (Nat.lt_of_le_of_lt room short)]
    have one := ht.isLeaf_of_textAt hp leaf " "
    rw [← ht.length_textAt hp " "] at room
    rw [List.foldl_cons, first, ih (ht.retext _) (Nat.lt_of_le_of_lt room short)]
    · rw [Tree.retext_retext]
      congr 1
      refine Tree.retext_congr fun n hn => ?_
      simp only [Node.id_retext, Node.textAt, List.mem_cons]
      by_cases later : n.id ∈ ids <;> simp [later]
    · intro n hn mem
      rw [Tree.content_retext, Content.members_retext one] at hn
      obtain ⟨m, hm, rfl⟩ := List.mem_map.1 hn
      obtain ⟨leaf', full'⟩ := leaves m hm (List.mem_cons_of_mem _ mem)
      rw [Node.isLeaf_retext (one m hm), Node.text_retext_of_isLeaf leaf', Node.textAt]
      refine ⟨leaf', ?_⟩
      split
      · simp
      · exact full'
    · intro x hx
      rw [Tree.content_retext, Content.ids_retext one]
      exact alive x (List.mem_cons_of_mem _ hx)

/-- Inside the range of a node, the blanks below the node are ragged, unless they are as they
should be. -/
theorem isRagged_iff (ht : t.Regular) (hb : b ∈ t.nodes) (hk : b.kind ≠ .whitespace)
    (hp : p ∈ t.nodes) : isRagged b.span p = true ↔
      (p.kind = .whitespace ∧ p.id ∈ b.body.ids) ∧ oneSpace p.body.text = some " " := by
  have same : isRagged b.span p = (p.kind == .whitespace && b.span.encloses p.span &&
      (p.body.text != " " && p.body.text.toList.all fun c => c != '\n' && c != '\r')) := by
    simp only [isRagged, Placed.text, Bool.and_assoc]
  have spaced : oneSpace p.body.text = some " " ↔
      (p.body.text != " " && p.body.text.toList.all fun c => c != '\n' && c != '\r') = true := by
    unfold oneSpace
    split <;> simp_all
  rw [same, spaced, Bool.and_eq_true, Bool.and_eq_true, beq_iff_eq]
  refine and_congr_left fun _ => and_congr_right fun kind => ?_
  obtain ⟨leaf, text⟩ := ht.blank _ (Tree.toNode_mem hp) kind
  exact ht.numbered.encloses_iff hb hp (fun e => hk (e ▸ kind)) leaf text

theorem clamp_of_le {s : Span} {limit : Nat} (h : s.start ≤ s.stop) (h' : s.stop ≤ limit) :
    s.clamp limit = s := by
  simp [Span.clamp, Nat.min_eq_left h', Nat.min_eq_left h]

/-- **The whitespace formatter** makes one space of the blanks below a node that are on one line. -/
theorem spaces_whitespace : whitespace.Spaces oneSpace := by
  intro t b ht short hb hk
  have clamped : b.span.clamp (Span.word t.source.utf8ByteSize) = b.span := by
    rw [Span.word_of_lt short]
    exact clamp_of_le (Nat.le_add_right _ _) (Tree.stop_le hb)
  have mem : ∀ n ∈ t.content.members, n.id ∈ targets t b.span ↔
      (n.kind = .whitespace ∧ n.id ∈ b.body.ids) ∧ oneSpace n.body.text = some " " := by
    intro n hn
    obtain ⟨p, hp, rfl⟩ := Tree.exists_placed hn
    rw [← isRagged_iff ht hb hk hp, targets, clamped, List.mem_map]
    constructor
    · rintro ⟨q, hq, same⟩
      obtain ⟨hq, ragged⟩ := List.mem_filter.1 hq
      rwa [← ht.numbered.eq_of_id_eq hq hp same]
    · exact fun ragged => ⟨p, List.mem_filter.2 ⟨hp, ragged⟩, rfl⟩
  have alive : ∀ id ∈ targets t b.span, id ∈ t.content.ids := by
    intro id hid
    obtain ⟨q, hq, rfl⟩ := List.mem_map.1 hid
    exact Content.id_mem_ids (List.mem_filter.1 hq).1
  have leaves : ∀ n ∈ t.content.members, n.id ∈ targets t b.span →
      n.body.isLeaf = true ∧ n.body.text ≠ "" :=
    fun n hn hid => ht.blank n hn ((mem n hn).1 hid).1.1
  rw [whitespace, foldl_toSpace ht.numbered short _ leaves alive]
  congr 1
  refine Tree.retext_congr fun n hn => ?_
  simp only [mem n hn]
  by_cases below : n.kind = .whitespace ∧ n.id ∈ b.body.ids
  · rw [if_pos below]
    by_cases spaced : oneSpace n.body.text = some " "
    · rw [if_pos ⟨below, spaced⟩, spaced]
    · rw [if_neg fun h => spaced h.2]
      unfold oneSpace at spaced ⊢
      split <;> simp_all
  · rw [if_neg below, if_neg fun h => below h.1]

theorem oneSpace_oneSpace : OneSpace oneSpace := by
  intro s x h
  unfold oneSpace at h
  split at h
  · exact (Option.some.inj h).symm
  · simp at h

end Formatter

end SyntaxLint
