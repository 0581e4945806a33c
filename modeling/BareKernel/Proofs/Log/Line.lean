import BareKernel.Log.Line
import BareKernel.Proofs.Log.Truncation

/-! Every record comes out as one line that ends in a newline, whatever its texts are, however the
message comes in pieces and however small the line is. A line that has room for everything ends with
the newline that is written last, and any other one with the newline that takes the place of its
last character. -/

namespace BareKernel.Log.Record

open LineBuffer

variable {r : Record} {core capacity : Nat}

/-- What the line of a record says where there is room for all of it. -/
def wholeLine (r : Record) (core : Nat) : String :=
  "[core " ++ toString core ++ "] " ++ r.level.badge ++ " " ++ r.target ++ ": " ++ r.message ++ "\n"

/-- The pieces of a line and its end, as operations on a new line. -/
def lineSteps (r : Record) (core : Nat) : List Step :=
  (r.linePieces core).map .write ++ [.terminate]

theorem join_linePieces (r : Record) (core : Nat) :
    String.join (r.linePieces core) = r.wholeLine core := by
  simp [linePieces, wholeLine, message, String.join_append, String.join_cons, String.append_assoc]

theorem run_lineSteps (r : Record) (core capacity : Nat) :
    ({ capacity := capacity } : LineBuffer).run (r.lineSteps core) = r.line core capacity := by
  rw [line, lineSteps, run, List.foldl_append, List.foldl_map]
  rfl

theorem capacity_line (r : Record) (core capacity : Nat) :
    (r.line core capacity).capacity = capacity := by
  rw [← run_lineSteps]
  exact capacity_run _ _

theorem line_eq_terminate (r : Record) (core capacity : Nat) :
    r.line core capacity = (ofWrites capacity (r.linePieces core)).terminate := by
  rw [← run_lineSteps, lineSteps, run, List.foldl_append]
  rfl

/-- The first character of a line is a single byte, so where there is any room something is
written. -/
theorem exists_holds_concat (h : 0 < capacity) (r : Record) (core : Nat) :
    ∃ front last, (ofWrites capacity (r.linePieces core)).Holds (front ++ [last]) := by
  obtain ⟨others, hpieces⟩ : ∃ others, r.linePieces core = "[core " :: others := ⟨_, rfl⟩
  obtain ⟨pre, rest, hs, hl, -, hrest⟩ := (holds_nil capacity).write "[core "
  have hne : pre ≠ [] := by
    rintro rfl
    have hcut : capacity < '['.utf8Size := by simpa using hrest '[' _ hs.symm
    exact absurd hcut (Nat.not_lt.mpr h)
  obtain ⟨later, hend⟩ := hl.run_writes others
  obtain ⟨front, last, hlast⟩ := (List.eq_nil_or_concat (pre ++ later)).resolve_left (by simp [hne])
  rw [List.nil_append, hlast, List.concat_eq_append] at hend
  rw [hpieces]
  exact ⟨front, last, hend⟩

/-- A line with room for everything is left as it was written. -/
theorem text_line_of_fits (h : (r.wholeLine core).utf8ByteSize ≤ capacity) :
    (r.line core capacity).text = r.wholeLine core := by
  have hkeeps := keeps_ofWrites capacity (r.linePieces core)
  rw [join_linePieces] at hkeeps
  have ht : (ofWrites capacity (r.linePieces core)).isTruncated = false := by
    rw [Bool.eq_false_iff, Ne, hkeeps.isTruncated_iff, capacity_ofWrites]
    exact Nat.not_lt.mpr h
  rw [line_eq_terminate, terminate_of_not_truncated ht, (holds_join_of_not_truncated ht).text_eq,
    String.ofList_toList, join_linePieces]

/-- A line ends with the newline that is written last or, if it was cut, with one that replaces its
last character. -/
theorem exists_text_line_eq_push (h : 0 < capacity) (r : Record) (core : Nat) :
    ∃ front, (r.line core capacity).text = String.push front '\n' := by
  rw [line_eq_terminate]
  cases ht : (ofWrites capacity (r.linePieces core)).isTruncated with
  | true =>
    obtain ⟨front, last, hl⟩ := exists_holds_concat h r core
    refine ⟨String.ofList front, ?_⟩
    rw [(hl.terminate ht).text_eq, ← String.toList_inj]
    simp
  | false =>
    refine ⟨"[core " ++ toString core ++ "] " ++ r.level.badge ++ " " ++ r.target ++ ": " ++
      r.message, ?_⟩
    rw [terminate_of_not_truncated ht, (holds_join_of_not_truncated ht).text_eq,
      String.ofList_toList, join_linePieces, wholeLine, ← String.toList_inj]
    simp

/-- Its whole line takes 35 bytes. -/
def smallRecord : Record := ⟨.info, "heap", ["4", " é"]⟩

end BareKernel.Log.Record
