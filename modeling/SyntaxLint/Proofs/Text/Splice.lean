import SyntaxLint.Text.Bytes

/-!
# Proofs — Text — splices

A text in three parts, cut at the lengths of the first and of the first two: the middle part is
the slice between the cuts, a splice replaces it and nothing else, and both cuts fall between
characters.
-/

namespace SyntaxLint.Text

theorem bytes_toList (s : String) : bytes s.toList = s.utf8ByteSize := by
  rw [← utf8ByteSize_ofList, String.ofList_toList]

/-- A text is cut off whole at its own length. -/
theorem splitBytes_toList_append (a b : String) :
    splitBytes a.utf8ByteSize (a ++ b).toList = (a.toList, b.toList) := by
  rw [← bytes_toList, String.toList_append, splitBytes_bytes_append]

/-- The slice between two cuts is the part between them. -/
theorem slice_append (a b c : String) :
    slice (a ++ b ++ c) a.utf8ByteSize (a.utf8ByteSize + b.utf8ByteSize) = b := by
  unfold slice
  rw [String.append_assoc, splitBytes_toList_append, Nat.add_sub_cancel_left,
    splitBytes_toList_append, String.ofList_toList]

/-- A splice between two cuts replaces the part between them. -/
theorem splice_append (a b c x : String) :
    splice (a ++ b ++ c) a.utf8ByteSize (a.utf8ByteSize + b.utf8ByteSize) x = a ++ x ++ c := by
  have head : splitBytes a.utf8ByteSize (a ++ b ++ c).toList = (a.toList, (b ++ c).toList) := by
    rw [String.append_assoc, splitBytes_toList_append]
  have tail : splitBytes (a.utf8ByteSize + b.utf8ByteSize) (a ++ b ++ c).toList =
      ((a ++ b).toList, c.toList) := by
    rw [← String.utf8ByteSize_append, splitBytes_toList_append]
  unfold splice
  rw [head, tail, String.ofList_toList, String.ofList_toList]

/-- A cut at the length of a first part falls between characters. -/
theorem endsCharacter_append (a b : String) : endsCharacter (a ++ b) a.utf8ByteSize = true := by
  rw [endsCharacter_eq, isBoundary_iff]
  refine ⟨a.toList.length, ?_⟩
  rw [String.toList_append, List.take_left, bytes_toList]

end SyntaxLint.Text
