import Mathlib.Data.List.Induction
import BareKernel.Proofs.Log.LineBuffer

/-! Where a line is cut. Everything before the first character that was dropped is kept, however the
text came in pieces. But the line is not closed then: a later piece that begins with a narrower
character still goes in, and from there on the line no longer reads as a prefix of what was
written. -/

namespace BareKernel.Log.LineBuffer

variable {l : LineBuffer} {cs front later tail : List Char} {c : Char} {s : String}
  {capacity : Nat} {writes done rest : List String}

/-- A new line after these writes. -/
def ofWrites (capacity : Nat) (writes : List String) : LineBuffer :=
  ({ capacity := capacity } : LineBuffer).run (writes.map .write)

/-- There is room for the first character of this text. -/
def Admits (l : LineBuffer) (s : String) : Prop :=
  ∃ c tail, s.toList = c :: tail ∧ l.length + c.utf8Size ≤ l.capacity

/-! ## One write after another -/

theorem ofWrites_append (capacity : Nat) (done rest : List String) :
    ofWrites capacity (done ++ rest) = (ofWrites capacity done).run (rest.map .write) := by
  rw [ofWrites, List.map_append, run, List.foldl_append]
  rfl

theorem ofWrites_concat (capacity : Nat) (done : List String) (s : String) :
    ofWrites capacity (done ++ [s]) = (ofWrites capacity done).write s :=
  ofWrites_append capacity done [s]

@[simp] theorem capacity_ofWrites (capacity : Nat) (writes : List String) :
    (ofWrites capacity writes).capacity = capacity :=
  capacity_run _ _

theorem keeps_ofWrites (capacity : Nat) (writes : List String) :
    (ofWrites capacity writes).Keeps (String.join writes).toList :=
  (keeps_nil capacity).run writes

theorem holds_ofWrites (capacity : Nat) (writes : List String) :
    ∃ cs, (ofWrites capacity writes).Holds cs :=
  let ⟨cs, hcs, _⟩ := keeps_ofWrites capacity writes
  ⟨cs, hcs⟩

/-- As long as nothing was dropped, the line holds everything. -/
theorem holds_join_of_not_truncated (ht : (ofWrites capacity writes).isTruncated = false) :
    (ofWrites capacity writes).Holds (String.join writes).toList := by
  obtain ⟨cs, hcs, hall, -⟩ := keeps_ofWrites capacity writes
  rwa [← hall ht]

theorem isTruncated_write (ht : l.isTruncated = true) (s : String) :
    (l.write s).isTruncated = true := by
  rw [LineBuffer.write, append, ht, Bool.true_or]

/-- Writes only add at the end. -/
theorem Holds.run_writes (hl : l.Holds cs) (writes : List String) :
    ∃ later, (l.run (writes.map .write)).Holds (cs ++ later) := by
  induction writes generalizing l cs with
  | nil => exact ⟨[], by rwa [List.append_nil]⟩
  | cons s writes ih =>
    obtain ⟨pre, -, -, hl', -, -⟩ := hl.write s
    obtain ⟨later, hend⟩ := ih hl'
    exact ⟨pre ++ later, by rwa [← List.append_assoc]⟩

/-- A write leaves the line as it reads exactly when there is no room for its first character. -/
theorem Holds.text_write_eq_iff (hl : l.Holds cs) (s : String) :
    (l.write s).text = l.text ↔ ¬l.Admits s := by
  obtain ⟨pre, rest, hs, hl', -, hrest⟩ := hl.write s
  have hpre : (l.write s).text = l.text ↔ pre = [] := by
    rw [hl'.text_eq, hl.text_eq, String.ofList_inj, List.append_right_eq_self]
  have hlen := hl.length_eq
  rw [hpre]
  constructor
  · rintro rfl ⟨c, tail, hc, hroom⟩
    have hcut := hrest c tail (hs.symm.trans hc)
    rw [List.append_nil] at hcut
    omega
  · intro hadmits
    cases pre with
    | nil => rfl
    | cons c pre =>
      have hfits : (encode (cs ++ c :: pre)).length ≤ l.capacity := by
        rw [← hl'.length_eq]
        exact hl'.fits
      rw [encode_append, List.length_append, encode_cons, List.length_append,
        String.length_utf8EncodeChar] at hfits
      exact absurd ⟨c, pre ++ rest, hs, by omega⟩ hadmits

/-! ## The first character that is dropped -/

/-- A line of which something was dropped holds what is before the first character for which there
was no room, and whatever was let in after it. -/
theorem exists_cut (ht : (ofWrites capacity writes).isTruncated = true) :
    ∃ front c tail later, (String.join writes).toList = front ++ c :: tail ∧
      capacity < (encode front).length + c.utf8Size ∧
      (ofWrites capacity writes).Holds (front ++ later) := by
  induction writes using List.reverseRecOn with
  | nil => cases ht
  | append_singleton writes s ih =>
    have hjoin : (String.join (writes ++ [s])).toList =
        (String.join writes).toList ++ s.toList := by
      simp [String.join_append, String.join_cons]
    rw [ofWrites_concat] at ht ⊢
    rw [hjoin]
    cases hlt : (ofWrites capacity writes).isTruncated with
    | true =>
      obtain ⟨front, c, tail, later, hwritten, hcut, hl⟩ := ih hlt
      obtain ⟨pre, -, -, hl', -, -⟩ := hl.write s
      refine ⟨front, c, tail ++ s.toList, later ++ pre, ?_, hcut, ?_⟩
      · rw [hwritten, List.append_assoc, List.cons_append]
      · rwa [← List.append_assoc]
    | false =>
      have hl := holds_join_of_not_truncated hlt
      obtain ⟨pre, rest, hs, hl', htrunc, hrest⟩ := hl.write s
      have hne : rest ≠ [] := by simpa [hlt, ht] using htrunc
      obtain ⟨c, tail, rfl⟩ := List.exists_cons_of_ne_nil hne
      refine ⟨_, c, tail, [], ?_, ?_, by rwa [List.append_nil]⟩
      · rw [hs, List.append_assoc]
      · simpa using hrest c tail rfl

/-- Whatever is let in after the cut is narrower than what was dropped there, so not the same. -/
theorem Holds.isPrefix_iff (hl : l.Holds (front ++ later))
    (hcut : l.capacity < (encode front).length + c.utf8Size) :
    front ++ later <+: front ++ c :: tail ↔ later = [] := by
  rw [List.prefix_append_right_inj]
  cases later with
  | nil => simp
  | cons d later =>
    have hfits := hl.fits
    rw [hl.length_eq, encode_append, List.length_append, encode_cons, List.length_append,
      String.length_utf8EncodeChar] at hfits
    have hne : d ≠ c := by
      rintro rfl
      omega
    simp [List.cons_prefix_cons, hne]

/-! ## Prefixes -/

/-- A line that reads as a prefix has let nothing in since it was cut. -/
theorem text_eq_of_isPrefix
    (h : (ofWrites capacity (done ++ rest)).text.toList <+: (String.join (done ++ rest)).toList)
    (ht : (ofWrites capacity done).isTruncated = true) :
    (ofWrites capacity (done ++ rest)).text = (ofWrites capacity done).text := by
  obtain ⟨front, c, tail, later, hwritten, hcut, hl⟩ := exists_cut ht
  obtain ⟨more, hend⟩ := hl.run_writes rest
  rw [← ofWrites_append, List.append_assoc] at hend
  rw [hend.text_eq, String.toList_ofList, String.join_append, String.toList_append, hwritten,
    List.append_assoc, List.cons_append, hend.isPrefix_iff (by simpa using hcut)] at h
  obtain ⟨rfl, rfl⟩ := List.append_eq_nil_iff.mp h
  rw [hend.text_eq, hl.text_eq, List.append_nil]

/-- As long as there is no room for what comes after the cut, the line reads as a prefix. -/
theorem isPrefix_of_not_admits
    (h : ∀ done s rest, writes = done ++ s :: rest → (ofWrites capacity done).isTruncated = true →
      ¬(ofWrites capacity done).Admits s) :
    (ofWrites capacity writes).text.toList <+: (String.join writes).toList := by
  induction writes using List.reverseRecOn with
  | nil => exact List.prefix_rfl
  | append_singleton writes s ih =>
    rw [ofWrites_concat, String.join_append, String.toList_append]
    cases ht : (ofWrites capacity writes).isTruncated with
    | true =>
      obtain ⟨cs, hl⟩ := holds_ofWrites capacity writes
      rw [(hl.text_write_eq_iff s).mpr (h writes s [] rfl ht)]
      refine (ih fun done t rest hw => ?_).trans (List.prefix_append _ _)
      exact h done t (rest ++ [s]) (by rw [hw, List.append_assoc, List.cons_append])
    | false =>
      obtain ⟨pre, rest, hs, hl', -, -⟩ := (holds_join_of_not_truncated ht).write s
      rw [hl'.text_eq, String.toList_ofList, List.prefix_append_right_inj]
      simp [String.join_cons, hs]

/-- A line reads as a prefix of all that was written exactly when nothing was let in since something
was first dropped; and that is so exactly when each text that was written since is empty or begins
with a character for which there was no room. -/
theorem isPrefix_iff_closed (capacity : Nat) (writes : List String) :
    let l := ofWrites capacity writes
    (l.text.toList <+: (String.join writes).toList ↔
      ∀ done rest, writes = done ++ rest → (ofWrites capacity done).isTruncated = true →
        l.text = (ofWrites capacity done).text) ∧
    (l.text.toList <+: (String.join writes).toList ↔
      ∀ done s rest, writes = done ++ s :: rest → (ofWrites capacity done).isTruncated = true →
        ¬(ofWrites capacity done).Admits s) := by
  intro l
  have hclosed : l.text.toList <+: (String.join writes).toList →
      ∀ done rest, writes = done ++ rest → (ofWrites capacity done).isTruncated = true →
        l.text = (ofWrites capacity done).text := by
    rintro h done rest rfl ht
    exact text_eq_of_isPrefix h ht
  have hadmits : (∀ done rest, writes = done ++ rest → (ofWrites capacity done).isTruncated = true →
        l.text = (ofWrites capacity done).text) →
      ∀ done s rest, writes = done ++ s :: rest → (ofWrites capacity done).isTruncated = true →
        ¬(ofWrites capacity done).Admits s := by
    intro h done s rest hw ht
    obtain ⟨cs, hl⟩ := holds_ofWrites capacity done
    have hnext : l.text = ((ofWrites capacity done).write s).text := by
      rw [← ofWrites_concat]
      refine h (done ++ [s]) rest (by rw [hw, List.append_assoc, List.singleton_append]) ?_
      rw [ofWrites_concat]
      exact isTruncated_write ht s
    exact (hl.text_write_eq_iff s).mp (hnext.symm.trans (h done (s :: rest) hw ht))
  exact ⟨⟨hclosed, fun h => isPrefix_of_not_admits (hadmits h)⟩,
    ⟨fun h => hadmits (hclosed h), isPrefix_of_not_admits⟩⟩

/-- There was no room for the wide character, but there is for the narrow one after it. -/
theorem not_isPrefix_of_narrower :
    (ofWrites 5 ["abcdé", "x"]).text = "abcdx" ∧
      ¬(ofWrites 5 ["abcdé", "x"]).text.toList <+: (String.join ["abcdé", "x"]).toList := by
  decide +kernel

end BareKernel.Log.LineBuffer
