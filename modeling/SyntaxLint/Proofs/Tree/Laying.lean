import SyntaxLint.Proofs.Tree.Fitting
import SyntaxLint.Proofs.Tree.Lookup
import SyntaxLint.Proofs.Tree.Ranges

/-!
# Proofs — Trees — laying an outline over a source

An outline whose nodes fit is laid over its source, and then nothing of either is lost: the texts
cut out add up to the source, the lengths of the texts give the ranges back, and the identities are
the places of the nodes in post-order.  Since the nodes of the outline of a tree always fit, a tree
that is stored and laid out again is the same but for its identities.

* `Content.lays_ofOutline`: a run that is laid over a text.
* `Content.map_id_postorder_ofOutline`: the identities that are given out.
* `Tree.Laid`, `Tree.laid`: what is made of an outline.
* `Tree.exists_ofOutline_outline`: the outline of a tree.
-/

namespace SyntaxLint

namespace Text

/-- Of two starts of one text, the longer goes on where the shorter ends. -/
theorem exists_append_of_bytes_le {as bs cs ds : List Char} (h : as ++ bs = cs ++ ds)
    (le : bytes as ≤ bytes cs) : ∃ es, cs = as ++ es ∧ bs = es ++ ds := by
  rcases List.append_eq_append_iff.1 h with ⟨es, rfl, rfl⟩ | ⟨es, rfl, rfl⟩
  · exact ⟨es, rfl, rfl⟩
  · cases es with
    | nil => exact ⟨[], by simp⟩
    | cons c es =>
      simp only [bytes_append, bytes_cons] at le
      have := c.utf8Size_pos
      omega

/-- A cut between characters, of the part of a text behind its first characters. -/
theorem splitBytes_of_divides {pre cs : List Char} {offset : Nat}
    (h : Divides (.ofList (pre ++ cs)) offset) (le : bytes pre ≤ offset) :
    ∃ es ds, cs = es ++ ds ∧ offset = bytes pre + bytes es ∧
      splitBytes (offset - bytes pre) cs = (es, ds) := by
  obtain ⟨before, after, split, rfl⟩ := h
  have split : pre ++ cs = before.toList ++ after.toList := by
    rw [← String.toList_append, ← split, String.toList_ofList]
  rw [← bytes_toList] at le ⊢
  obtain ⟨es, longer, rfl⟩ := exists_append_of_bytes_le split le
  have sum : bytes before.toList = bytes pre + bytes es := by rw [longer, bytes_append]
  refine ⟨es, _, rfl, sum, ?_⟩
  rw [sum, Nat.add_sub_cancel_left, splitBytes_bytes_append]

end Text

namespace Content

/-! ### The texts and the ranges -/

/-- What is read of a run that is laid over the text `cs` from `pos` to `stop`: its texts are the
start of `cs`, and its ranges are those of the outline. -/
structure Read.Lays (r : Read) (pos stop : Nat) (cs : List Char) (o : Outline) : Prop where
  text : r.content.text.toList ++ r.rest = cs
  stop : pos + r.content.width = stop
  outline : r.content.outline pos = o

/-- **A run whose nodes fit is laid over its text.** -/
theorem lays_ofOutline {o : Outline} {pre cs : List Char} {stop : Nat}
    (fits : ∀ m ∈ o.postorder, m.Fits (.ofList (pre ++ cs)))
    (around : Span.Around ⟨Text.bytes pre, stop⟩ o.spans) (le : Text.bytes pre ≤ stop)
    (divides : Text.Divides (.ofList (pre ++ cs)) stop) (free : NodeId) :
    (ofOutline (Text.bytes pre) stop cs free o).Lays (Text.bytes pre) stop cs o := by
  -- by induction on the run; what comes before the text grows by what is cut off
  induction o generalizing pre cs stop free with
  | done =>
    obtain ⟨es, ds, rfl, rfl, cut⟩ := Text.splitBytes_of_divides divides le
    rw [ofOutline, cut]
    exact ⟨by simp, by simp [width, Text.utf8ByteSize_ofList], rfl⟩
  | node kind s children next ihc ihn =>
    rw [Outline.spans_node, Span.around_cons] at around
    obtain ⟨first, last, behind⟩ := around
    rw [Outline.postorder, List.forall_mem_append, List.forall_mem_cons] at fits
    obtain ⟨below, here, beside⟩ := fits
    obtain ⟨start, stop'⟩ := s
    obtain ⟨gap, ds, rfl, starts, cut⟩ := Text.splitBytes_of_divides here.start first
    have before : Text.bytes (pre ++ gap) = start := by rw [Text.bytes_append, ← starts]
    simp only [← List.append_assoc] at below beside here divides
    have body := ihc below (by rw [before]; exact here.children)
      (by rw [before]; exact here.ordered) here.stop free
    rw [before] at body
    simp only [ofOutline, cut]
    generalize ofOutline start stop' ds free children = b at body
    have width := body.stop
    obtain ⟨text, -, inner⟩ := body
    subst text
    have stops : Text.bytes (pre ++ gap ++ b.content.text.toList) = stop' := by
      rw [Text.bytes_append, before, Text.bytes_toList, ← width_eq, width]
    simp only [← List.append_assoc] at beside divides
    have rest := ihn beside (by rw [stops]; exact behind) (by rw [stops]; exact last) divides
      (b.free + 1)
    rw [stops] at rest
    generalize ofOutline stop' stop b.rest (b.free + 1) next = r at rest
    have gapped : Text.bytes pre + (String.ofList gap).utf8ByteSize = start := by
      rw [Text.utf8ByteSize_ofList, ← starts]
    constructor
    case text => simp [rest.text]
    case stop => rw [Content.width, ← Nat.add_assoc, ← Nat.add_assoc, gapped, width, rest.stop]
    case outline => rw [outline, gapped, width, inner, rest.outline]

/-! ### Post-order -/

/-- All nodes of a run that begins at `start` below `parent`, each after those below it. -/
def postorder (start : Nat) (parent : Option NodeId) : Content → List Placed
  | .tail _ => []
  | .node gap id kind body next =>
    body.postorder (start + gap.utf8ByteSize) (some id) ++
      ⟨⟨id, kind, body⟩, start + gap.utf8ByteSize, parent⟩ ::
      next.postorder (start + gap.utf8ByteSize + body.width) parent

/-- Both orders list the same nodes. -/
theorem postorder_perm_preorder (c : Content) (start : Nat) (parent : Option NodeId) :
    (c.postorder start parent).Perm (c.preorder start parent) := by
  induction c generalizing start parent with
  | tail s => exact .nil
  | node gap id kind body next ihb ihn =>
    rw [postorder, preorder, List.cons_append]
    refine List.perm_middle.trans (.cons _ ?_)
    exact (ihb _ _).append (ihn _ _)

end Content

/-- The outline of a node where it stands. -/
def Placed.outline (n : Placed) : OutlineNode := ⟨n.kind, n.span, n.body.outline n.start⟩

namespace Content

/-- The outline of a run lists the outlines of its nodes. -/
theorem map_outline_postorder (c : Content) (start : Nat) (parent : Option NodeId) :
    (c.postorder start parent).map Placed.outline = (c.outline start).postorder := by
  induction c generalizing start parent with
  | tail s => rfl
  | node gap id kind body next ihb ihn =>
    rw [postorder, outline, Outline.postorder, List.map_append, List.map_cons, ihb, ihn]
    rfl

/-- **The identities that are given out** count the nodes in post-order, from `free` on. -/
theorem map_id_postorder_ofOutline (o : Outline) (pos stop : Nat) (cs : List Char)
    (free : NodeId) (start : Nat) (parent : Option NodeId) :
    (((ofOutline pos stop cs free o).content.postorder start parent).map (·.id) =
      List.range' free o.postorder.length) ∧
    (ofOutline pos stop cs free o).free = free + o.postorder.length := by
  induction o generalizing pos stop cs free start parent with
  | done => exact ⟨rfl, rfl⟩
  | node kind s children next ihc ihn =>
    simp only [ofOutline, postorder, Outline.postorder, List.map_append, List.map_cons,
      List.length_append, List.length_cons]
    obtain ⟨below, count⟩ := ihc s.start s.stop (Text.splitBytes (s.start - pos) cs).2 free
      (start + (String.ofList (Text.splitBytes (s.start - pos) cs).1).utf8ByteSize)
      (some (free + children.postorder.length))
    generalize ofOutline s.start s.stop (Text.splitBytes (s.start - pos) cs).2 free children = b
      at below count
    obtain ⟨beside, count'⟩ := ihn s.stop stop b.rest (b.free + 1)
      (start + (String.ofList (Text.splitBytes (s.start - pos) cs).1).utf8ByteSize +
        b.content.width) parent
    rw [count] at beside count' ⊢
    rw [below, beside, count']
    refine ⟨?_, by rw [Nat.add_assoc, Nat.add_assoc, Nat.add_comm 1]⟩
    rw [← List.range'_succ, List.range'_append_1]

end Content

namespace Tree

variable {identity : TreeId} {source : String} {n : OutlineNode} {t : Tree}

/-! ### Trees -/

/-- The live nodes of a tree, each after those below it. -/
def postorder (t : Tree) : List Placed := t.content.postorder 0 none

theorem mem_postorder_iff {m : Placed} : m ∈ t.postorder ↔ m ∈ t.nodes :=
  (Content.postorder_perm_preorder t.content 0 none).mem_iff

theorem map_outline_postorder (t : Tree) :
    t.postorder.map Placed.outline = t.outline.postorder := by
  rw [postorder, Content.map_outline_postorder]
  simp [content, Content.outline, Outline.postorder, OutlineNode.postorder, outline, top,
    Placed.span]

/-- An outline is refused with the fault that the check finds, or laid over the source. -/
theorem ofOutline_eq_error_iff {e : TreeError} :
    ofOutline identity source n = .error e ↔ n.check source = .error e := by
  rw [ofOutline]
  cases n.check source <;> simp [bind, Except.bind, pure, Except.pure]

theorem exists_ofOutline_iff :
    (∃ t, ofOutline identity source n = .ok t) ↔ n.check source = .ok () := by
  rw [ofOutline]
  cases n.check source <;> simp [bind, Except.bind, pure, Except.pure]

/-- **A tree that is laid over a source** has the source and the outline, and the identities that
count its nodes in post-order. -/
theorem of_ofOutline (h : ofOutline identity source n = .ok t) :
    t.source = source ∧ t.outline = n ∧
      t.postorder.map (·.id) = List.range n.postorder.length ∧
      t.root.id + 1 = n.postorder.length := by
  have check := exists_ofOutline_iff.1 ⟨t, h⟩
  have fits := OutlineNode.check_eq_ok_iff.1 check
  rw [ofOutline, check] at h
  simp only [bind, Except.bind, pure, Except.pure, Except.ok.injEq] at h
  rw [OutlineNode.postorder, List.forall_mem_append, List.forall_mem_singleton] at fits
  obtain ⟨below, here⟩ := fits
  obtain ⟨kind, ⟨start, stop⟩, children⟩ := n
  obtain ⟨before, cs, split, starts, cut⟩ :=
    @Text.splitBytes_of_divides [] source.toList start
      (by rw [List.nil_append, String.ofList_toList]; exact here.start) (Nat.zero_le _)
  rw [Text.bytes_nil, Nat.sub_zero] at cut
  rw [Text.bytes_nil, Nat.zero_add] at starts
  have whole : source = .ofList (before ++ cs) := by rw [← split, String.ofList_toList]
  subst whole
  have laid := Content.lays_ofOutline below (by rw [← starts]; exact here.children)
    (by rw [← starts]; exact here.ordered) here.stop 0
  have ids := Content.map_id_postorder_ofOutline children start stop cs 0 start
    (some (children.postorder.length))
  rw [← starts] at laid
  simp only [cut] at h
  generalize Content.ofOutline start stop cs 0 children = b at h laid ids
  obtain ⟨listed, free⟩ := ids
  rw [Nat.zero_add] at free
  have offset : (String.ofList before).utf8ByteSize = start := by
    rw [Text.utf8ByteSize_ofList, ← starts]
  subst h
  refine ⟨?_, ?_, ?_, by simp [free, OutlineNode.postorder]⟩
  · have text : b.content.text ++ String.ofList b.rest = String.ofList cs := by
      rw [← laid.text, String.ofList_append, String.ofList_toList]
    rw [source_eq, String.append_assoc, text, ← String.ofList_append]
  · simp [outline, top, Placed.span, offset, laid.stop, laid.outline]
  · have range : List.range (children.postorder.length + 1) =
        List.range' 0 children.postorder.length ++ [children.postorder.length] := by
      rw [List.range_succ, List.range_eq_range']
    simp [postorder, content, Content.postorder, offset, free, listed, OutlineNode.postorder, range]

/-- A node is found at its place in post-order, where the identities are the places. -/
theorem Numbered.node?_eq_getElem? (numbered : t.Numbered)
    (h : t.postorder.map (·.id) = List.range t.postorder.length) (id : NodeId) :
    t.node? id = t.postorder[id]? := by
  have place : ∀ {i : Nat} {m : Placed}, t.postorder[i]? = some m → m.id = i := by
    intro i m found
    have same : (t.postorder.map (·.id))[i]? = some m.id := by rw [List.getElem?_map, found]; rfl
    rw [h, List.getElem?_eq_some_iff] at same
    simpa using same.2.symm
  ext m
  rw [numbered.node?_eq_some_iff, ← mem_postorder_iff]
  constructor
  case mp =>
    rintro ⟨hm, rfl⟩
    obtain ⟨i, found⟩ := List.mem_iff_getElem?.1 hm
    rwa [place found]
  case mpr =>
    exact fun found => ⟨List.mem_of_getElem? found, place found⟩

/-- **The outline of a tree can be laid over its source.** -/
theorem exists_ofOutline_outline (identity : TreeId) (t : Tree) :
    ∃ u, ofOutline identity t.source t.outline = .ok u ∧ u.source = t.source ∧
      u.outline = t.outline := by
  obtain ⟨u, laid⟩ := exists_ofOutline_iff.2 t.validate_eq_ok
  exact ⟨u, laid, (of_ofOutline laid).1, (of_ofOutline laid).2.1⟩

/-- What is made of an outline over a source: a tree if every node fits, else an error that blames
a node which does not.  The nodes of the tree are found under their places in post-order, the root
under the last one. -/
structure Laid (source : String) (n : OutlineNode) (made : Except TreeError Tree) : Prop where
  accepted : (∃ t, made = .ok t) ↔ ∀ m ∈ n.postorder, m.Fits source
  refused : ∀ e, made = .error e → ∃ m cause, e = .invalidRange m.kind m.span cause ∧
    OutlineNode.Blames source n.postorder m cause
  source : ∀ t, made = .ok t → t.source = source
  outline : ∀ t, made = .ok t → t.outline = n
  nodes : ∀ t, made = .ok t → ∀ id, (t.node? id).map Placed.outline = n.postorder[id]?
  root : ∀ t, made = .ok t → t.root.id + 1 = n.postorder.length

/-- **Every outline is laid over a source or refused as its ranges demand.** -/
theorem laid (identity : TreeId) (source : String) (n : OutlineNode) :
    Laid source n (ofOutline identity source n) := by
  constructor
  case accepted => rw [exists_ofOutline_iff, OutlineNode.check_eq_ok_iff]
  case refused => exact fun e h => OutlineNode.blames_of_check (ofOutline_eq_error_iff.1 h)
  case source => exact fun t h => (of_ofOutline h).1
  case outline => exact fun t h => (of_ofOutline h).2.1
  case nodes =>
    intro t h id
    obtain ⟨-, outline, ids, -⟩ := of_ofOutline h
    have count : t.postorder.length = n.postorder.length := by
      simpa using congrArg List.length ids
    rw [(numbered_ofOutline h).node?_eq_getElem? (by rw [ids, count]), ← List.getElem?_map,
      map_outline_postorder, outline]
  case root => exact fun t h => (of_ofOutline h).2.2.2

end Tree

end SyntaxLint
