import Mathlib.Data.Nat.Bitwise
import BareKernel.Firmware.Message

/-! Property messages as a code. A tag and up to 29 values have a request of their own, which tells
both; and what the firmware leaves of the values comes back, in front of whatever else the caller's
values were. These are touched only when both checks have passed. -/

namespace BareKernel.Firmware.Message

variable {tag tag' : UInt32} {values values' out : List UInt32} {m m' : Message} {i : Nat}

/-! ## Words -/

theorem words_getElem? (m : Message) (i : Nat) :
    m.words[i]? = if i < messageWords then some (m.word i) else none := by
  split
  · rename_i hi
    have hlt : i < m.words.length := m.length_eq.symm ▸ hi
    rw [word, List.getD_eq_getElem?_getD, List.getElem?_eq_getElem hlt, Option.getD_some]
  · rename_i hi
    exact List.getElem?_eq_none (m.length_eq.symm ▸ Nat.le_of_not_lt hi)

theorem setWords_append (m : Message) (words words' : List (Nat × UInt32)) :
    m.setWords (words ++ words') = (m.setWords words).setWords words' := List.foldl_append

/-! ## Encoding -/

/-- The request for this tag with these values. -/
structure Carries (m : Message) (tag : UInt32) (values : List UInt32) : Prop where
  size : (m.word 0).toNat = 4 * (values.length + 6)
  tag : m.word 2 = tag
  valueBytes : (m.word 3).toNat = 4 * values.length
  value : ∀ i (hi : i < values.length), m.word (headerWords + i) = values[i]
  zero : ∀ i, i ≠ 0 → i ≠ 2 → i ≠ 3 → (i < headerWords ∨ headerWords + values.length ≤ i) →
    m.word i = 0

/-- A message carries only one tag and one list of values. -/
theorem Carries.inj (h : m.Carries tag values) (h' : m.Carries tag' values') :
    tag = tag' ∧ values = values' := by
  have hlen : values.length = values'.length := by
    have hbytes := h.valueBytes.symm.trans h'.valueBytes
    omega
  refine ⟨h.tag.symm.trans h'.tag, List.ext_getElem hlen fun i hi hi' => ?_⟩
  exact (h.value i hi).symm.trans (h'.value i hi')

theorem exists_encode (tag : UInt32) (h : values.length ≤ maxValueWords) :
    ∃ m, encode tag values = .ok m ∧ m.Carries tag values := by
  have hn : values.length ≤ 29 := h
  have hmod : ∀ k, k ≤ 140 → (UInt32.ofNat k).toNat = k := fun k hk =>
    UInt32.toNat_ofNat_of_lt' (Nat.lt_of_le_of_lt hk (by decide))
  refine ⟨_, by rw [encode, dif_pos h], ?_⟩
  constructor
  case size => exact (hmod _ (by rw [headerWords]; omega)).trans (by rw [headerWords]; omega)
  case tag => rfl
  case valueBytes => exact hmod _ (by omega)
  case value =>
    intro i hi
    simp only [word, headerWords, Nat.add_comm 5 i, List.getD_eq_getElem?_getD, List.cons_append,
      List.getElem?_cons_succ, List.nil_append]
    rw [List.getElem?_append_left hi, List.getElem?_eq_getElem hi, Option.getD_some]
  case zero =>
    intro i h₀ h₂ h₃ hi
    match i with
    | 0 | 2 | 3 => contradiction
    | 1 | 4 => rfl
    | i + 5 =>
      have hlen : values.length ≤ i := by
        rw [headerWords] at hi
        omega
      simp only [word, List.getD_eq_getElem?_getD, List.cons_append, List.getElem?_cons_succ,
        List.nil_append]
      rw [List.getElem?_append_right hlen, List.getElem?_replicate]
      split <;> rfl

theorem encode_of_lt (h : maxValueWords < values.length) :
    encode tag values = .error .messageTooLong := by
  rw [encode, dif_neg (Nat.not_le.mpr h)]

theorem carries_of_encode (h : encode tag values = .ok m) :
    values.length ≤ maxValueWords ∧ m.Carries tag values := by
  by_cases hn : values.length ≤ maxValueWords
  · obtain ⟨m', hm', hc⟩ := exists_encode tag hn
    obtain rfl : m' = m := Except.ok.inj (hm'.symm.trans h)
    exact ⟨hn, hc⟩
  · rw [encode_of_lt (Nat.lt_of_not_le hn)] at h
    cases h

/-! ## Decoding -/

/-- The first `n` of the caller's values are replaced, one after another. -/
def copyOut (m : Message) : Nat → List UInt32 → List UInt32
  | 0, out => out
  | n + 1, out => (m.copyOut n out).set n (m.word (headerWords + n))

/-- As `decode`, on the caller's own values. -/
def decodeInto (m : Message) : ExceptT Error (StateM (List UInt32)) Unit := do
  if m.word 1 ≠ responseSuccess then throw (.rejected (m.word 1))
  if m.word 4 &&& tagResponse = 0 then throw .tagNotAcknowledged
  modify fun out => m.copyOut (min out.length maxValueWords) out

theorem length_copyOut (m : Message) (n : Nat) (out : List UInt32) :
    (m.copyOut n out).length = out.length := by
  induction n with
  | zero => rfl
  | succ n ih => rw [copyOut, List.length_set, ih]

theorem getElem?_copyOut (m : Message) {n : Nat} (hn : n ≤ out.length) (i : Nat) :
    (m.copyOut n out)[i]? = if i < n then some (m.word (headerWords + i)) else out[i]? := by
  induction n with
  | zero => rfl
  | succ n ih =>
    rw [copyOut, List.getElem?_set, length_copyOut, ih (by omega)]
    by_cases hi : n = i
    · subst hi
      rw [if_pos rfl, if_pos (by omega), if_pos (by omega)]
    · rw [if_neg hi]
      by_cases hlt : i < n
      · rw [if_pos hlt, if_pos (by omega)]
      · rw [if_neg hlt, if_neg (by omega)]

theorem copyOut_eq (m : Message) {n : Nat} (hmax : n ≤ maxValueWords) (hn : n ≤ out.length) :
    m.copyOut n out = (m.words.drop headerWords).take n ++ out.drop n := by
  have hwords : n ≤ (m.words.drop headerWords).length := by
    rw [List.length_drop, m.length_eq, messageWords]
    omega
  refine List.ext_getElem? fun i => ?_
  rw [getElem?_copyOut m hn]
  split
  · rename_i hi
    have hword : headerWords + i < messageWords := by
      rw [messageWords]
      omega
    rw [List.getElem?_append_left (by rw [List.length_take]; omega), List.getElem?_take_of_lt hi,
      List.getElem?_drop, words_getElem?, if_pos hword]
  · rename_i hi
    rw [List.getElem?_append_right (by rw [List.length_take]; omega), List.length_take,
      Nat.min_eq_left hwords, List.getElem?_drop, Nat.add_sub_cancel' (Nat.le_of_not_lt hi)]

theorem decode_eq (m : Message) (out : List UInt32) :
    m.decode out =
      if m.word 1 ≠ responseSuccess then .error (.rejected (m.word 1))
      else if m.word 4 &&& tagResponse = 0 then .error .tagNotAcknowledged
      else .ok (m.copyOut (min out.length maxValueWords) out) := by
  rw [decode, copyOut_eq m (Nat.min_le_right _ _) (Nat.min_le_left _ _)]

/-- What the caller's own values come to: those of the answer, or after an error the old ones. -/
theorem run_decodeInto (m : Message) (out : List UInt32) :
    m.decodeInto.run.run out = match m.decode out with
      | .ok values => (.ok (), values)
      | .error e => (.error e, out) := by
  rw [decode_eq]
  by_cases h₁ : m.word 1 ≠ responseSuccess
  · simp only [decodeInto, if_pos h₁]
    rfl
  by_cases h₄ : m.word 4 &&& tagResponse = 0
  · simp only [decodeInto, if_neg h₁, if_pos h₄]
    rfl
  · simp only [decodeInto, if_neg h₁, if_neg h₄]
    rfl

/-- The firmware has answered the tag. -/
def IsAcknowledged (m : Message) : Prop := (m.word 4).toNat.testBit 31 = true

theorem and_tagResponse_eq_zero_iff : m.word 4 &&& tagResponse = 0 ↔ ¬m.IsAcknowledged := by
  rw [← UInt32.toNat_inj, UInt32.toNat_and, IsAcknowledged]
  change (m.word 4).toNat &&& 2 ^ 31 = 0 ↔ _
  rw [Nat.and_two_pow]
  cases (m.word 4).toNat.testBit 31 <;> simp

theorem decode_eq_rejected_iff {code : UInt32} :
    m.decode out = .error (.rejected code) ↔ m.word 1 ≠ responseSuccess ∧ code = m.word 1 := by
  rw [decode_eq]
  split
  · rename_i h
    simp [h, eq_comm]
  · rename_i h
    split <;> simp [h]

theorem decode_eq_tagNotAcknowledged_iff :
    m.decode out = .error .tagNotAcknowledged ↔
      m.word 1 = responseSuccess ∧ ¬m.IsAcknowledged := by
  rw [decode_eq, ← and_tagResponse_eq_zero_iff]
  split
  · rename_i h
    simp [h]
  · rename_i h
    split <;> simp_all

theorem decode_of_isAcknowledged (h₁ : m.word 1 = responseSuccess) (h₄ : m.IsAcknowledged)
    (out : List UInt32) :
    m.decode out = .ok (m.copyOut (min out.length maxValueWords) out) := by
  have hbit : ¬m.word 4 &&& tagResponse = 0 :=
    fun h => and_tagResponse_eq_zero_iff.mp h h₄
  rw [decode_eq, if_neg (not_not_intro h₁), if_neg hbit]

/-- What an answer makes of the values that the caller had, word by word. -/
structure Answers (m : Message) (old : List UInt32) (r : Except Error (List UInt32)) : Prop where
  rejected : m.word 1 ≠ 0x80000000 → r = .error (.rejected (m.word 1))
  unacknowledged : m.word 1 = 0x80000000 → (m.word 4).toNat.testBit 31 = false →
    r = .error .tagNotAcknowledged
  answered : m.word 1 = 0x80000000 → (m.word 4).toNat.testBit 31 = true → ∃ new, r = .ok new ∧
    new.length = old.length ∧
    ∀ i : Nat, new[i]? = if i < min old.length 29 then some (m.word (5 + i)) else old[i]?

theorem answers_decode (m : Message) (old : List UInt32) : m.Answers old (m.decode old) where
  rejected h := decode_eq_rejected_iff.mpr ⟨h, rfl⟩
  unacknowledged h h₄ := decode_eq_tagNotAcknowledged_iff.mpr ⟨h, ne_true_of_eq_false h₄⟩
  answered h h₄ := ⟨_, decode_of_isAcknowledged h h₄ old, length_copyOut m _ old,
    getElem?_copyOut m (Nat.min_le_left _ _)⟩

/-- What the firmware leaves of the values comes back. -/
theorem decode_of_carries (hc : m.Carries tag values) (hn : values.length ≤ maxValueWords)
    (h₁ : m'.word 1 = responseSuccess) (h₄ : m'.IsAcknowledged)
    (hsame : ∀ i < values.length, m'.word (headerWords + i) = m.word (headerWords + i))
    (hlen : out.length = values.length) : m'.decode out = .ok values := by
  rw [decode_of_isAcknowledged h₁ h₄, hlen, Nat.min_eq_left hn]
  refine congrArg Except.ok (List.ext_getElem? fun i => ?_)
  rw [getElem?_copyOut m' (Nat.le_of_eq hlen.symm)]
  split
  · rename_i hi
    rw [hsame i hi, hc.value i hi, List.getElem?_eq_getElem hi]
  · rename_i hi
    rw [List.getElem?_eq_none (hlen ▸ Nat.le_of_not_lt hi),
      List.getElem?_eq_none (Nat.le_of_not_lt hi)]

/-- A request tells its tag and its values and nothing else, as long as there are no more than 29.
An answer is rejected for its code before its tag is looked at, and only one that passes both checks
changes the caller's values, as many of them as a message has; and an answer that only adds the two
marks to a request gives the request's values back. -/
theorem codec_laws (tag : UInt32) (values : List UInt32) :
    (values.length ≤ 29 →
      ∃ m, encode tag values = .ok m ∧ m.words.length = 35 ∧ m.Carries tag values) ∧
    (29 < values.length → encode tag values = .error .messageTooLong) ∧
    (∀ m tag' values', encode tag values = .ok m → encode tag' values' = .ok m →
      tag = tag' ∧ values = values') ∧
    (∀ (m : Message) (out : List UInt32),
      (∀ code, m.decode out = .error (.rejected code) ↔
        m.word 1 ≠ responseSuccess ∧ code = m.word 1) ∧
      (m.decode out = .error .tagNotAcknowledged ↔
        m.word 1 = responseSuccess ∧ ¬m.IsAcknowledged) ∧
      (∀ e, m.decode out = .error e → m.decodeInto.run.run out = (.error e, out)) ∧
      (m.word 1 = responseSuccess → m.IsAcknowledged → ∃ out', m.decode out = .ok out' ∧
        m.decodeInto.run.run out = (.ok (), out') ∧ out'.length = out.length ∧
        ∀ i, out'[i]? = if i < min out.length 29 then some (m.word (5 + i)) else out[i]?)) ∧
    (∀ m (m' : Message) (out : List UInt32), encode tag values = .ok m →
      m'.word 1 = responseSuccess → m'.IsAcknowledged →
      (∀ i < values.length, m'.word (5 + i) = m.word (5 + i)) → out.length = values.length →
      m'.decode out = .ok values) := by
  refine ⟨fun hn => ?_, encode_of_lt, fun m tag' values' h h' => ?_, fun m out => ?_,
    fun m m' out h h₁ h₄ hsame hlen => ?_⟩
  · obtain ⟨m, hm, hc⟩ := exists_encode tag hn
    exact ⟨m, hm, m.length_eq, hc⟩
  · exact (carries_of_encode h).2.inj (carries_of_encode h').2
  · refine ⟨fun _ => decode_eq_rejected_iff, decode_eq_tagNotAcknowledged_iff, fun e he => ?_,
      fun h₁ h₄ => ?_⟩
    · rw [run_decodeInto, he]
    · have hok := decode_of_isAcknowledged h₁ h₄ out
      refine ⟨_, hok, ?_, length_copyOut m _ out, ?_⟩
      · rw [run_decodeInto, hok]
      · exact getElem?_copyOut m (Nat.min_le_left _ _)
  · obtain ⟨hn, hc⟩ := carries_of_encode h
    exact decode_of_carries hc hn h₁ h₄ hsame hlen

end BareKernel.Firmware.Message
