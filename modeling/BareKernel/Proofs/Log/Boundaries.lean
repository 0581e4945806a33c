import BareKernel.Log.LineBuffer

/-! Characters in bytes. The bytes of a text are those of its characters one after another, and of
each character all but the first byte are marked as continuing it. So the boundaries of a text are
where its characters start, and to go back to the last one is to drop one incomplete character. -/

namespace BareKernel.Log.LineBuffer

variable {bytes : List UInt8} {cs : List Char} {c : Char} {n k : Nat}

/-! ## Text and bytes -/

/-- The bytes of these characters. -/
def encode (cs : List Char) : List UInt8 := cs.flatMap String.utf8EncodeChar

@[simp] theorem encode_nil : encode [] = [] := rfl

@[simp] theorem encode_cons (c : Char) (cs : List Char) :
    encode (c :: cs) = String.utf8EncodeChar c ++ encode cs := rfl

@[simp] theorem encode_append (cs cs' : List Char) :
    encode (cs ++ cs') = encode cs ++ encode cs' := List.flatMap_append

theorem toList_loop (b : ByteArray) (i : Nat) (read : List UInt8) :
    ByteArray.toList.loop b i read = read.reverse ++ b.data.toList.drop i := by
  fun_induction ByteArray.toList.loop b i read with
  | case1 i read h ih =>
    have hi : i < b.data.toList.length := by simpa using h
    have hget : b.get! i = b.data.toList[i] := by simp [ByteArray.get!, h]
    rw [ih, List.reverse_cons, List.append_assoc, hget, List.drop_eq_getElem_cons hi]
    rfl
  | case2 i read h =>
    have hend : b.data.toList.length ≤ i := by simpa using Nat.le_of_not_lt h
    rw [List.drop_eq_nil_of_le hend, List.append_nil]

/-- The bytes of a string are those of its characters. -/
theorem toList_toUTF8 (s : String) : s.toUTF8.toList = encode s.toList := by
  rw [ByteArray.toList, toList_loop, String.toUTF8, ← String.utf8Encode_toList]
  exact List.toList_data_toByteArray

theorem length_encode (s : String) : (encode s.toList).length = s.utf8ByteSize := by
  rw [← toList_toUTF8, ByteArray.toList, toList_loop]
  rfl

/-- Whole characters are read back as they were written. -/
theorem fromUTF8?_encode (cs : List Char) :
    String.fromUTF8? ⟨(encode cs).toArray⟩ = some (String.ofList cs) := by
  have hbytes : (⟨(encode cs).toArray⟩ : ByteArray) = (String.ofList cs).toByteArray := by
    rw [String.toByteArray_ofList]
    refine ByteArray.ext (Array.toList_inj.mp ?_)
    exact List.toList_data_toByteArray.symm
  have hvalid : (⟨(encode cs).toArray⟩ : ByteArray).IsValidUTF8 :=
    hbytes ▸ (String.ofList cs).isValidUTF8
  rw [String.fromUTF8?, dif_pos hvalid]
  exact congrArg some (String.toByteArray_inj.mp hbytes)

/-! ## Bytes of a character -/

/-- A byte with six bits of a character that its first byte left over. -/
theorem isContinuation_low (k : Nat) : isContinuation (UInt8.ofNat (k % 64 + 128)) = true := by
  have hall : ∀ k < 64, isContinuation (UInt8.ofNat (k + 128)) = true := by decide
  exact hall _ (Nat.mod_lt _ (by decide))

/-- The first byte of a character does not continue one, and all others do. -/
theorem exists_utf8EncodeChar (c : Char) : ∃ b bs, String.utf8EncodeChar c = b :: bs ∧
    isContinuation b = false ∧ ∀ x ∈ bs, isContinuation x = true := by
  have h₁ : ∀ k < 128, isContinuation (UInt8.ofNat k) = false := by decide
  have h₂ : ∀ k < 32, isContinuation (UInt8.ofNat (k + 192)) = false := by decide
  have h₃ : ∀ k < 16, isContinuation (UInt8.ofNat (k + 224)) = false := by decide
  have h₄ : ∀ k < 8, isContinuation (UInt8.ofNat (k + 240)) = false := by decide
  have low : ∀ vs : List Nat, ∀ x ∈ vs.map fun v => UInt8.ofNat (v % 64 + 128),
      isContinuation x = true :=
    fun _ => List.forall_mem_map.mpr fun v _ => isContinuation_low v
  unfold String.utf8EncodeChar
  generalize c.val.toNat = v
  dsimp only
  split
  · rename_i hv
    exact ⟨_, [], rfl, h₁ v (Nat.lt_succ_of_le hv), low []⟩
  split
  · exact ⟨_, _, rfl, h₂ _ (Nat.mod_lt _ (by decide)), low [v]⟩
  split
  · exact ⟨_, _, rfl, h₃ _ (Nat.mod_lt _ (by decide)), low [v / 64, v]⟩
  · exact ⟨_, _, rfl, h₄ _ (Nat.mod_lt _ (by decide)), low [v / 4096, v / 64, v]⟩

/-! ## Boundaries -/

theorem boundaryUpTo_le (bytes : List UInt8) (n : Nat) : boundaryUpTo bytes n ≤ n := by
  induction n with
  | zero => exact Nat.le_refl 0
  | succ n ih =>
    rw [boundaryUpTo]
    split
    · exact Nat.le_refl _
    · exact Nat.le_trans ih (Nat.le_succ n)

/-- The boundary that is found is the one with none between it and `n`. -/
theorem boundaryUpTo_eq (hk : k ≤ n) (hb : isBoundary bytes k = true)
    (hn : ∀ i, k < i → i ≤ n → isBoundary bytes i = false) : boundaryUpTo bytes n = k := by
  induction n with
  | zero => exact (Nat.le_zero.mp hk).symm
  | succ n ih =>
    rw [boundaryUpTo]
    rcases Nat.le_succ_iff.mp hk with hle | rfl
    · have hnot : isBoundary bytes (n + 1) = false := hn _ (Nat.lt_succ_of_le hle) (Nat.le_refl _)
      rw [hnot, if_neg Bool.false_ne_true]
      exact ih hle fun i h₁ h₂ => hn i h₁ (Nat.le_trans h₂ (Nat.le_succ n))
    · rw [if_pos hb]

theorem isBoundary_length (bytes : List UInt8) : isBoundary bytes bytes.length = true := by
  simp [isBoundary]

/-- A text ends at a boundary. -/
theorem boundaryUpTo_length (bytes : List UInt8) : boundaryUpTo bytes bytes.length = bytes.length :=
  boundaryUpTo_eq (Nat.le_refl _) (isBoundary_length bytes)
    fun _ h₁ h₂ => absurd h₁ (Nat.not_lt.mpr h₂)

theorem isBoundary_append (bytes rest : List UInt8) (i : Nat) :
    isBoundary (bytes ++ rest) (bytes.length + i) = isBoundary rest i := by
  rw [isBoundary, isBoundary, List.getElem?_append_right (Nat.le_add_right _ _),
    Nat.add_sub_cancel_left]

/-- A character starts at a boundary, and there is no other one within it. -/
theorem isBoundary_encode_cons (c : Char) (cs : List Char) {i : Nat} (hi : i < c.utf8Size) :
    isBoundary (encode (c :: cs)) i = decide (i = 0) := by
  obtain ⟨b, bs, hc, hb, hbs⟩ := exists_utf8EncodeChar c
  have hlen : bs.length + 1 = c.utf8Size := by rw [← String.length_utf8EncodeChar, hc]; rfl
  rw [encode_cons, hc, List.cons_append, isBoundary]
  cases i with
  | zero => simp [hb]
  | succ i =>
    have hib : i < bs.length := by omega
    have hcont : isContinuation bs[i] = true := hbs _ (List.getElem_mem hib)
    simp [List.getElem?_append_left hib, List.getElem?_eq_getElem hib, hcont]

/-- Text that starts with a whole character has a boundary at its start. -/
theorem isBoundary_encode_zero (cs : List Char) : isBoundary (encode cs) 0 = true := by
  cases cs with
  | nil => rfl
  | cons c cs => simpa using isBoundary_encode_cons c cs c.utf8Size_pos

/-- Anywhere within a character, the last boundary is where it starts. -/
theorem boundaryUpTo_encode (cs rest : List Char) (hk : (encode cs).length ≤ n)
    (hn : n < (encode cs).length + c.utf8Size) :
    boundaryUpTo (encode (cs ++ c :: rest)) n = (encode cs).length := by
  have hat : ∀ i < c.utf8Size,
      isBoundary (encode (cs ++ c :: rest)) ((encode cs).length + i) = decide (i = 0) := by
    intro i hi
    rw [encode_append, isBoundary_append, isBoundary_encode_cons c rest hi]
  refine boundaryUpTo_eq hk (hat 0 c.utf8Size_pos) fun i h₁ h₂ => ?_
  obtain ⟨j, rfl⟩ := Nat.exists_eq_add_of_le (Nat.le_of_lt h₁)
  rw [hat j (by omega), decide_eq_false (by omega)]

/-- The longest run of whole characters that fits into `n` bytes. -/
theorem exists_fitting (cs : List Char) (n : Nat) (hn : n < (encode cs).length) :
    ∃ pre c rest, cs = pre ++ c :: rest ∧ (encode pre).length ≤ n ∧
      n < (encode pre).length + c.utf8Size := by
  induction cs generalizing n with
  | nil => exact absurd hn (Nat.not_lt_zero n)
  | cons c cs ih =>
    by_cases hc : n < c.utf8Size
    · exact ⟨[], c, cs, rfl, Nat.zero_le n, by simpa using hc⟩
    · rw [encode_cons, List.length_append, String.length_utf8EncodeChar] at hn
      obtain ⟨pre, d, rest, rfl, h₁, h₂⟩ := ih (n - c.utf8Size) (by omega)
      have hlen : (encode (c :: pre)).length = c.utf8Size + (encode pre).length := by
        rw [encode_cons, List.length_append, String.length_utf8EncodeChar]
      exact ⟨c :: pre, d, rest, rfl, by omega, by omega⟩

end BareKernel.Log.LineBuffer
