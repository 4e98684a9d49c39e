import SyntaxLint.Proofs.Tree.Alter

/-!
# Proofs — Trees — removed siblings

A run without some of its siblings.  The siblings from one to another go, with everything below
them and with the text from the start of the first to the end of the last; the siblings before
stand where they stood, and what follows moves to where the first began.

* `Content.Cutting`: the text, the nodes and the siblings of a run before and after.
* `Content.cut_spec`: what cutting does.
-/

namespace SyntaxLint

namespace Placed

@[simp] theorem ids_preorder (n : Placed) : n.preorder.map (·.id) = n.id :: n.body.ids := by
  simp [preorder, descendants, Content.ids_preorder]

end Placed

namespace Content

variable {c : Content} {start : Nat} {parent : Option NodeId} {a b : Placed} {i j : Nat}

@[simp] theorem ids_prepend (gap : String) (c : Content) : (c.prepend gap).ids = c.ids := by
  cases c <;> rfl

@[simp] theorem preorder_prepend (gap : String) (c : Content) (start : Nat)
    (parent : Option NodeId) :
    (c.prepend gap).preorder start parent = c.preorder (start + gap.utf8ByteSize) parent := by
  cases c <;> simp [prepend, preorder, String.utf8ByteSize_append, Nat.add_assoc]

@[simp] theorem siblings_prepend (gap : String) (c : Content) (start : Nat)
    (parent : Option NodeId) :
    (c.prepend gap).siblings start parent = c.siblings (start + gap.utf8ByteSize) parent := by
  cases c <;> simp [prepend, siblings, String.utf8ByteSize_append, Nat.add_assoc]

theorem ids_after_sublist (last : NodeId) (c : Content) : (c.after last).ids.Sublist c.ids := by
  induction c with
  | tail s => exact List.Sublist.refl _
  | node gap id kind body next _ ihn =>
    rw [after]
    split
    · exact (List.sublist_append_right body.ids next.ids).cons id
    · exact (ihn.trans (List.sublist_append_right body.ids next.ids)).cons id

/-- Removing siblings only drops identities. -/
theorem ids_cut_sublist (first last : NodeId) (c : Content) :
    (c.cut first last).ids.Sublist c.ids := by
  induction c with
  | tail s => exact List.Sublist.refl _
  | node gap id kind body next _ ihn =>
    rw [cut]
    split
    · rw [ids_prepend]; exact ids_after_sublist _ _
    · exact (ihn.append_left body.ids).cons_cons id

theorem id_mem_ids_of_getElem? (h : (c.siblings start parent)[i]? = some a) : a.id ∈ c.ids :=
  id_mem_ids (mem_preorder_of_mem_siblings (List.mem_of_getElem? h))

/-- A run up to and after the sibling `b`, its `j`-th. -/
theorem after_spec (hd : c.ids.Nodup) (hb : (c.siblings start parent)[j]? = some b) :
    ∃ head, c.text = head ++ (c.after b.id).text ∧ b.span.stop = start + head.utf8ByteSize ∧
      c.preorder start parent = ((c.siblings start parent).take (j + 1)).flatMap Placed.preorder ++
        (c.after b.id).preorder b.span.stop parent ∧
      c.siblings start parent = (c.siblings start parent).take (j + 1) ++
        (c.after b.id).siblings b.span.stop parent := by
  induction c generalizing start j with
  | tail s => simp [siblings] at hb
  | node gap id kind body next _ ihn =>
    obtain ⟨-, idn, -, hx, -⟩ := nodup_node hd
    cases j with
    | zero =>
      obtain rfl : _ = b := by simpa [siblings] using hb
      refine ⟨gap ++ body.text, ?_, ?_, ?_, ?_⟩
      · simp [after]
      · simp [Placed.span, String.utf8ByteSize_append, width_eq, Nat.add_assoc]
      · simp [preorder, siblings, after, Placed.preorder, Placed.descendants, Placed.span]
      · simp [siblings, after, Placed.span]
    | succ j =>
      have hb : (next.siblings (start + gap.utf8ByteSize + body.width) parent)[j]? = some b := by
        simpa [siblings] using hb
      have ne : id ≠ b.id := fun e => idn (e ▸ id_mem_ids_of_getElem? hb)
      obtain ⟨head, text, stop, nodes, beside⟩ := ihn hx hb
      rw [after, if_neg ne]
      refine ⟨gap ++ body.text ++ head, ?_, ?_, ?_, ?_⟩
      · simp [text, String.append_assoc]
      · rw [stop]
        simp only [String.utf8ByteSize_append, width_eq]
        omega
      · conv => lhs; rw [preorder, nodes]
        simp [siblings, Placed.preorder, Placed.descendants]
      · conv => lhs; rw [siblings, beside]
        simp [siblings]

/-- What becomes of a run `c` without its siblings from `a`, the `i`-th, to `b`, the `j`-th.  What
follows them, `rest`, moves from the end of `b` to the start of `a`. -/
structure Cutting (c c' : Content) (start : Nat) (parent : Option NodeId) (i j : Nat)
    (a b : Placed) (before mid : String) (rest : Content) : Prop where
  text : c.text = before ++ mid ++ rest.text
  text' : c'.text = before ++ rest.text
  first : a.start = start + before.utf8ByteSize
  last : b.span.stop = a.start + mid.utf8ByteSize
  nodes : c.preorder start parent = ((c.siblings start parent).take i).flatMap Placed.preorder ++
    (((c.siblings start parent).drop i).take (j + 1 - i)).flatMap Placed.preorder ++
    rest.preorder b.span.stop parent
  nodes' : c'.preorder start parent =
    ((c.siblings start parent).take i).flatMap Placed.preorder ++ rest.preorder a.start parent
  siblings : c.siblings start parent = (c.siblings start parent).take i ++
    ((c.siblings start parent).drop i).take (j + 1 - i) ++ rest.siblings b.span.stop parent
  siblings' : c'.siblings start parent =
    (c.siblings start parent).take i ++ rest.siblings a.start parent

/-- **A run without some of its siblings.** -/
theorem cut_spec (hd : c.ids.Nodup) (hij : i ≤ j)
    (ha : (c.siblings start parent)[i]? = some a) (hb : (c.siblings start parent)[j]? = some b) :
    ∃ before mid rest, c.Cutting (c.cut a.id b.id) start parent i j a b before mid rest := by
  induction c generalizing start i j with
  | tail s => simp [siblings] at ha
  | node gap id kind body next _ ihn =>
    obtain ⟨-, idn, -, hx, -⟩ := nodup_node hd
    cases i with
    | zero =>
      obtain rfl : _ = a := by simpa [siblings] using ha
      -- the gap before `a` stays, so it is left out of what is removed
      have hb : ((node "" id kind body next).siblings (start + gap.utf8ByteSize) parent)[j]? =
          some b := by simpa [siblings] using hb
      have hd : (node "" id kind body next).ids.Nodup := hd
      obtain ⟨mid, text, stop, nodes, beside⟩ := after_spec hd hb
      refine ⟨gap, mid, (node "" id kind body next).after b.id,
        ⟨?_, ?_, rfl, stop, ?_, ?_, ?_, ?_⟩⟩
      · rw [String.append_assoc, ← text]
        simp [String.append_assoc]
      · rw [cut, if_pos rfl, text_prepend]; rfl
      · simpa [preorder, siblings] using nodes
      · rw [cut, if_pos rfl, preorder_prepend]; simp [after]
      · simpa [siblings] using beside
      · rw [cut, if_pos rfl, siblings_prepend]; simp [after]
    | succ i =>
      obtain ⟨j, rfl⟩ : ∃ k, j = k + 1 := ⟨j - 1, by omega⟩
      have ha : (next.siblings (start + gap.utf8ByteSize + body.width) parent)[i]? = some a := by
        simpa [siblings] using ha
      have hb : (next.siblings (start + gap.utf8ByteSize + body.width) parent)[j]? = some b := by
        simpa [siblings] using hb
      have ne : id ≠ a.id := fun e => idn (e ▸ id_mem_ids_of_getElem? ha)
      obtain ⟨before, mid, rest, h⟩ := ihn hx (Nat.le_of_succ_le_succ hij) ha hb
      rw [cut, if_neg ne]
      refine ⟨gap ++ body.text ++ before, mid, rest, ⟨?_, ?_, ?_, h.last, ?_, ?_, ?_, ?_⟩⟩
      · simp only [text_node, h.text, String.append_assoc]
      · simp only [text_node, h.text', String.append_assoc]
      · rw [h.first]
        simp only [String.utf8ByteSize_append, width_eq]
        omega
      · conv => lhs; rw [preorder, h.nodes]
        simp [siblings, Placed.preorder, Placed.descendants]
      · conv => lhs; rw [preorder, h.nodes']
        simp [siblings, Placed.preorder, Placed.descendants]
      · conv => lhs; rw [siblings, h.siblings]
        simp [siblings]
      · conv => lhs; rw [siblings, h.siblings']
        simp [siblings]

end Content

end SyntaxLint
