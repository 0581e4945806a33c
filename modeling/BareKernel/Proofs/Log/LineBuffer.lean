import BareKernel.Proofs.Log.Boundaries

/-! A line of bounded size holds whole characters, whatever is written into it and whenever it is
terminated. A write adds as many characters as there is room for, and the newline of a line that was
cut takes the place of one character. The same operations with every subtraction and every access
checked never fail, so nothing here relies on a number that is cut off at 0 or on a list that is
shorter than what is taken of it. -/

namespace BareKernel.Log.LineBuffer

variable {l : LineBuffer} {cs front : List Char} {c : Char} {bytes : List UInt8}
  {n capacity : Nat} {written : List Char}

/-! ## One operation after another -/

inductive Step where
  | write (s : String)
  | terminate
  deriving DecidableEq, Repr

def step (l : LineBuffer) : Step → LineBuffer
  | .write s => l.write s
  | .terminate => l.terminate

def run (l : LineBuffer) (steps : List Step) : LineBuffer := steps.foldl step l

/-! ## With every access checked -/

/-- As `boundaryUpTo`, for text that has to have a boundary at its start. -/
def boundaryUpTo? (bytes : List UInt8) : Nat → Option Nat
  | 0 => if isBoundary bytes 0 then some 0 else none
  | n + 1 => if isBoundary bytes (n + 1) then some (n + 1) else boundaryUpTo? bytes n

/-- Where the character with a byte at `n` starts. Each byte that is looked at has to be there, and
the first one is not looked at. -/
def characterStart? (bytes : List UInt8) : Nat → Option Nat
  | 0 => some 0
  | n + 1 =>
    if n + 1 < bytes.length then
      if isBoundary bytes (n + 1) then some (n + 1) else characterStart? bytes n
    else none

/-- As `write`. What is left is not negative, and neither the text nor the buffer is shorter than
what is copied. -/
def write? (l : LineBuffer) (s : String) : Option LineBuffer :=
  let bytes := s.toUTF8.toList
  if l.length ≤ l.capacity then do
    let n ← boundaryUpTo? bytes (min bytes.length (l.capacity - l.length))
    if n ≤ bytes.length ∧ l.length + n ≤ l.capacity then
      some { l with
        bytes := l.bytes ++ bytes.take n
        isTruncated := l.isTruncated || n < bytes.length }
    else none
  else none

/-- As `terminate`. There is a last byte, and the newline goes into the buffer. -/
def terminate? (l : LineBuffer) : Option LineBuffer :=
  if l.isTruncated && !l.isEmpty then
    if 1 ≤ l.length then do
      let start ← characterStart? l.bytes (l.length - 1)
      if start < l.capacity then some { l with bytes := l.bytes.take start ++ [newline] }
      else none
    else none
  else some l

def step? (l : LineBuffer) : Step → Option LineBuffer
  | .write s => l.write? s
  | .terminate => l.terminate?

def run? (l : LineBuffer) (steps : List Step) : Option LineBuffer := steps.foldlM step? l

theorem boundaryUpTo?_eq (h₀ : isBoundary bytes 0 = true) (n : Nat) :
    boundaryUpTo? bytes n = some (boundaryUpTo bytes n) := by
  induction n with
  | zero => rw [boundaryUpTo?, if_pos h₀, boundaryUpTo]
  | succ n ih =>
    rw [boundaryUpTo?, boundaryUpTo, ih]
    split <;> rfl

theorem characterStart?_eq (hn : n < bytes.length) :
    characterStart? bytes n = some (boundaryUpTo bytes n) := by
  induction n with
  | zero => rfl
  | succ n ih =>
    rw [characterStart?, boundaryUpTo, if_pos hn, ih (Nat.lt_of_succ_lt hn)]
    split <;> rfl

/-! ## What a line holds -/

/-- The line holds these characters, and they fit. -/
structure Holds (l : LineBuffer) (cs : List Char) : Prop where
  bytes : l.bytes = encode cs
  fits : l.length ≤ l.capacity

theorem holds_nil (capacity : Nat) : ({ capacity := capacity } : LineBuffer).Holds [] :=
  ⟨rfl, Nat.zero_le _⟩

theorem Holds.length_eq (hl : l.Holds cs) : l.length = (encode cs).length :=
  congrArg List.length hl.bytes

/-- A line can always be read. -/
theorem Holds.fromUTF8? (hl : l.Holds cs) :
    String.fromUTF8? ⟨l.bytes.toArray⟩ = some (String.ofList cs) := by
  rw [hl.bytes, fromUTF8?_encode]

theorem Holds.text_eq (hl : l.Holds cs) : l.text = String.ofList cs := by
  rw [text, hl.fromUTF8?]
  rfl

theorem Holds.isEmpty_eq (hl : l.Holds cs) : l.isEmpty = cs.isEmpty := by
  rw [isEmpty, hl.bytes]
  cases cs with
  | nil => rfl
  | cons c cs =>
    obtain ⟨b, bs, hc, -⟩ := exists_utf8EncodeChar c
    rw [encode_cons, hc]
    rfl

/-! ## Writing -/

/-- A write adds the characters that fit. It drops the others from the first one on for which there
is no room, and none when all fit. -/
theorem Holds.write (hl : l.Holds cs) (s : String) :
    ∃ pre rest, s.toList = pre ++ rest ∧ (l.write s).Holds (cs ++ pre) ∧
      (l.write s).isTruncated = (l.isTruncated || !rest.isEmpty) ∧
      ∀ c tail, rest = c :: tail → l.capacity < (encode (cs ++ pre)).length + c.utf8Size := by
  have hroom := hl.fits
  have hlen := hl.length_eq
  have hsize : ∀ pre, (encode (cs ++ pre)).length = l.length + (encode pre).length := fun pre => by
    rw [encode_append, List.length_append, hlen]
  -- what is copied is the encoding of `pre`
  have hcopied : ∀ pre, (encode pre).length ≤ l.capacity - l.length →
      (l.bytes ++ encode pre).length ≤ l.capacity := fun pre hpre => by
    rw [List.length_append]
    change l.length + _ ≤ _
    omega
  rw [LineBuffer.write, append, toList_toUTF8]
  by_cases hn : (encode s.toList).length ≤ l.capacity - l.length
  · refine ⟨s.toList, [], by simp, ?_⟩
    rw [Nat.min_eq_left hn, boundaryUpTo_length, List.take_length]
    exact ⟨⟨by rw [encode_append, hl.bytes], hcopied _ hn⟩, by simp, nofun⟩
  · obtain ⟨pre, c, rest, hs, h₁, h₂⟩ := exists_fitting s.toList _ (Nat.not_le.mp hn)
    have hcut : boundaryUpTo (encode s.toList) (l.capacity - l.length) = (encode pre).length := by
      rw [hs, boundaryUpTo_encode pre rest h₁ h₂]
    have htake : (encode s.toList).take (encode pre).length = encode pre := by
      rw [hs, encode_append, List.take_left]
    have hdrop : (encode pre).length < (encode s.toList).length := by omega
    refine ⟨pre, c :: rest, hs, ?_⟩
    rw [Nat.min_eq_right (Nat.le_of_not_le hn), hcut, htake]
    refine ⟨⟨by rw [encode_append, hl.bytes], hcopied pre h₁⟩, by simp [hdrop], ?_⟩
    rintro _ _ ⟨⟩
    rw [hsize]
    omega

theorem Holds.write?_eq (hl : l.Holds cs) (s : String) : l.write? s = some (l.write s) := by
  have hstart : isBoundary s.toUTF8.toList 0 = true := by
    rw [toList_toUTF8]
    exact isBoundary_encode_zero s.toList
  have hfits := hl.fits
  have hle := boundaryUpTo_le s.toUTF8.toList (min s.toUTF8.toList.length (l.capacity - l.length))
  unfold write? LineBuffer.write append
  dsimp only
  rw [if_pos hfits, boundaryUpTo?_eq hstart]
  exact if_pos (by omega)

/-! ## Terminating -/

theorem terminate_of_not_truncated (ht : l.isTruncated = false) : l.terminate = l := by
  rw [terminate, ht]
  rfl

/-- The newline takes the place of the last character. -/
theorem Holds.terminate_eq (hl : l.Holds (front ++ [c])) (ht : l.isTruncated = true) :
    l.terminate = { l with bytes := encode (front ++ ['\n']) } := by
  have hne : l.isEmpty = false := by rw [hl.isEmpty_eq]; simp
  have hpos := c.utf8Size_pos
  have hlen : l.length = (encode front).length + c.utf8Size := by
    rw [hl.length_eq, encode_append, List.length_append, encode_cons, encode_nil, List.append_nil,
      String.length_utf8EncodeChar]
  have hcut : boundaryUpTo l.bytes (l.length - 1) = (encode front).length := by
    rw [hl.bytes]
    exact boundaryUpTo_encode front [] (by omega) (by omega)
  have hkeep : l.bytes.take (encode front).length = encode front := by
    rw [hl.bytes, encode_append, List.take_left]
  rw [terminate, ht, hne, hcut, hkeep, encode_append]
  rfl

/-- A newline is no longer than what it replaces. -/
theorem Holds.terminate (hl : l.Holds (front ++ [c])) (ht : l.isTruncated = true) :
    l.terminate.Holds (front ++ ['\n']) := by
  have hpos := c.utf8Size_pos
  have hfits := hl.fits
  rw [hl.length_eq, encode_append, List.length_append, encode_cons, encode_nil, List.append_nil,
    String.length_utf8EncodeChar] at hfits
  rw [hl.terminate_eq ht]
  refine ⟨rfl, ?_⟩
  have hnewline : (encode ['\n']).length = 1 := by decide
  change (encode (front ++ ['\n'])).length ≤ l.capacity
  rw [encode_append, List.length_append, hnewline]
  omega

/-- A line is left as it is, or its last character becomes a newline. -/
theorem Holds.terminate_cases (hl : l.Holds cs) :
    l.terminate = l ∨ l.isTruncated = true ∧ ∃ front last, cs = front ++ [last] := by
  cases ht : l.isTruncated with
  | false => exact .inl (terminate_of_not_truncated ht)
  | true =>
    rcases List.eq_nil_or_concat cs with rfl | ⟨front, last, rfl⟩
    · refine .inl ?_
      rw [LineBuffer.terminate, hl.isEmpty_eq, List.isEmpty_nil, Bool.not_true, Bool.and_false]
      rfl
    · exact .inr ⟨rfl, front, last, List.concat_eq_append⟩

theorem Holds.terminate_terminate (hl : l.Holds cs) : l.terminate.terminate = l.terminate := by
  rcases hl.terminate_cases with h | ⟨ht, front, last, rfl⟩
  · rw [h, h]
  · have hagain : l.terminate.isTruncated = true := by rw [hl.terminate_eq ht, ht]
    rw [(hl.terminate ht).terminate_eq hagain, hl.terminate_eq ht]

theorem Holds.terminate?_eq (hl : l.Holds cs) : l.terminate? = some l.terminate := by
  unfold terminate? LineBuffer.terminate
  split
  · rename_i hcut
    have hne : l.bytes ≠ [] := by
      simp only [Bool.and_eq_true, Bool.not_eq_true', isEmpty, List.isEmpty_eq_false_iff] at hcut
      exact hcut.2
    have hpos : 1 ≤ l.length := List.length_pos_iff.mpr hne
    have hlast : l.length - 1 < l.bytes.length := Nat.sub_lt hpos Nat.one_pos
    have hin : boundaryUpTo l.bytes (l.length - 1) < l.capacity :=
      Nat.lt_of_le_of_lt (boundaryUpTo_le _ _) (Nat.lt_of_lt_of_le hlast hl.fits)
    rw [if_pos hpos, characterStart?_eq hlast]
    exact if_pos hin
  · rfl

/-! ## Any number of operations -/

@[simp] theorem capacity_step (l : LineBuffer) (op : Step) : (l.step op).capacity = l.capacity := by
  cases op with
  | write s => rfl
  | terminate =>
    rw [step, terminate]
    split <;> rfl

theorem capacity_run (l : LineBuffer) (steps : List Step) :
    (l.run steps).capacity = l.capacity := by
  induction steps generalizing l with
  | nil => rfl
  | cons op steps ih => exact (ih _).trans (capacity_step l op)

/-- After one operation, which never fails, the line holds whole characters again. -/
theorem Holds.step (hl : l.Holds cs) (op : Step) :
    l.step? op = some (l.step op) ∧ ∃ cs', (l.step op).Holds cs' := by
  cases op with
  | write s =>
    obtain ⟨pre, -, -, hl', -, -⟩ := hl.write s
    exact ⟨hl.write?_eq s, _, hl'⟩
  | terminate =>
    refine ⟨hl.terminate?_eq, ?_⟩
    rcases hl.terminate_cases with h | ⟨ht, front, last, rfl⟩
    · refine ⟨cs, ?_⟩
      rw [LineBuffer.step, h]
      exact hl
    · exact ⟨_, hl.terminate ht⟩

theorem Holds.run (hl : l.Holds cs) (steps : List Step) :
    l.run? steps = some (l.run steps) ∧ ∃ cs', (l.run steps).Holds cs' := by
  induction steps generalizing l cs with
  | nil => exact ⟨rfl, cs, hl⟩
  | cons op steps ih =>
    obtain ⟨hop, cs', hl'⟩ := hl.step op
    obtain ⟨hrest, hend⟩ := ih hl'
    refine ⟨?_, hend⟩
    rw [run?, List.foldlM_cons, hop]
    exact hrest

/-! ## What was dropped -/

/-- Of these characters, the line holds all, or it says that there was no room for them. -/
def Keeps (l : LineBuffer) (written : List Char) : Prop :=
  ∃ cs, l.Holds cs ∧ (l.isTruncated = false → cs = written) ∧
    (l.isTruncated = true → l.capacity < (encode written).length)

theorem keeps_nil (capacity : Nat) : ({ capacity := capacity } : LineBuffer).Keeps [] :=
  ⟨[], holds_nil capacity, fun _ => rfl, nofun⟩

theorem Keeps.write (hl : l.Keeps written) (s : String) :
    (l.write s).Keeps (written ++ s.toList) := by
  obtain ⟨cs, hcs, hall, hmore⟩ := hl
  obtain ⟨pre, rest, hs, hl', ht, hrest⟩ := hcs.write s
  refine ⟨cs ++ pre, hl', fun hfalse => ?_, fun htrue => ?_⟩
  · obtain ⟨h₁, h₂⟩ := Bool.or_eq_false_iff.mp (ht.symm.trans hfalse)
    obtain rfl : rest = [] := by simpa using h₂
    rw [hall h₁, hs, List.append_nil]
  · change l.capacity < _
    cases hlt : l.isTruncated with
    | true =>
      rw [encode_append, List.length_append]
      exact Nat.lt_add_right _ (hmore hlt)
    | false =>
      have hne : rest ≠ [] := by simpa [hlt, htrue] using ht
      obtain ⟨c, tail, rfl⟩ := List.exists_cons_of_ne_nil hne
      have hcut := hrest c tail rfl
      rw [← hall hlt, hs, ← List.append_assoc, encode_append, List.length_append, encode_cons,
        List.length_append, String.length_utf8EncodeChar]
      omega

theorem Keeps.run (hl : l.Keeps written) (writes : List String) :
    (l.run (writes.map .write)).Keeps (written ++ (String.join writes).toList) := by
  induction writes generalizing l written with
  | nil => simpa [LineBuffer.run, String.join] using hl
  | cons s writes ih =>
    have hrest := ih (hl.write s)
    rwa [List.append_assoc, ← String.toList_append, ← String.join_cons] at hrest

/-- Something is dropped exactly when there is not room for everything. -/
theorem Keeps.isTruncated_iff {s : String} (hl : l.Keeps s.toList) :
    l.isTruncated = true ↔ l.capacity < s.utf8ByteSize := by
  obtain ⟨cs, hcs, hall, hmore⟩ := hl
  rw [← length_encode]
  refine ⟨hmore, fun hlt => ?_⟩
  cases ht : l.isTruncated with
  | true => rfl
  | false =>
    rw [← hall ht, ← hcs.length_eq] at hlt
    exact absurd hcs.fits (Nat.not_le.mpr hlt)

/-- A line that says that something was dropped does not read as what was written, and no other line
fails to. -/
theorem Keeps.isTruncated_iff_text_ne {s : String} (hl : l.Keeps s.toList) :
    l.isTruncated = true ↔ l.text ≠ s := by
  obtain ⟨cs, hcs, hall, hmore⟩ := hl
  rw [hcs.text_eq]
  constructor
  · rintro ht rfl
    have hlt := hmore ht
    rw [String.toList_ofList, ← hcs.length_eq] at hlt
    exact absurd hcs.fits (Nat.not_le.mpr hlt)
  · intro hs
    cases ht : l.isTruncated with
    | false => exact absurd (by rw [hall ht, String.ofList_toList]) hs
    | true => rfl

/-- Whatever is written into a line and whenever it is terminated, no operation fails, and the line
holds no more than it can and is read back as text. As long as it was not terminated, it says that
something was dropped exactly when it does not read as what was written, which is when there was not
room for all of it. To terminate it twice is to terminate it once; a line of which nothing was
dropped stays as it is, and in any other that is not empty a newline takes the place of the last
character. -/
theorem text_of_run (capacity : Nat) (steps : List Step) :
    let start : LineBuffer := { capacity := capacity }
    let l := start.run steps
    start.run? steps = some l ∧ l.length ≤ capacity ∧
      String.fromUTF8? ⟨l.bytes.toArray⟩ = some l.text ∧
      (∀ writes, steps = writes.map .write →
        (l.isTruncated = true ↔ l.text ≠ String.join writes) ∧
          (l.isTruncated = true ↔ capacity < (String.join writes).utf8ByteSize)) ∧
      l.terminate.terminate = l.terminate ∧ (l.isTruncated = false → l.terminate = l) ∧
      (l.isTruncated = true → l.isEmpty = false →
        ∃ front last, l.text = String.push front last ∧
          l.terminate.text = String.push front '\n') := by
  intro start l
  obtain ⟨hrun, cs, hl⟩ := (holds_nil capacity).run steps
  refine ⟨hrun, ?_, ?_, ?_, hl.terminate_terminate, terminate_of_not_truncated, ?_⟩
  · have hcapacity : l.capacity = capacity := capacity_run start steps
    exact hcapacity ▸ hl.fits
  · rw [hl.text_eq]
    exact hl.fromUTF8?
  · rintro writes rfl
    have hkeeps : l.Keeps (String.join writes).toList := (keeps_nil capacity).run writes
    have hcapacity : l.capacity = capacity := capacity_run start _
    exact ⟨hkeeps.isTruncated_iff_text_ne, hcapacity ▸ hkeeps.isTruncated_iff⟩
  · intro ht hne
    rcases List.eq_nil_or_concat cs with rfl | ⟨front, last, rfl⟩
    · cases hl.isEmpty_eq.symm.trans hne
    · rw [List.concat_eq_append] at hl
      refine ⟨String.ofList front, last, ?_, ?_⟩
      · rw [hl.text_eq, ← String.toList_inj]
        simp
      · rw [(hl.terminate ht).text_eq, ← String.toList_inj]
        simp

/-- There is room for half of the last character, and the newline replaces the one before it. -/
example : ({ capacity := 5 } : LineBuffer).run [.write "abéé", .terminate] =
    ⟨5, [97, 98, 10], true⟩ := by decide +kernel

end BareKernel.Log.LineBuffer
