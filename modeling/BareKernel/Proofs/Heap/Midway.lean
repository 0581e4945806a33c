import BareKernel.Proofs.Heap.Represents

/-! On the way from one plan to the next. While heap code rewrites some blocks of a plan, its other
blocks keep every unit that they own, and the free list visits what is left of its nodes. Taking a
node off the list, writing tags into a block that is off the list, and putting a free block in
front of it are the moves that everything else is made of. -/

namespace BareKernel.Heap

open Heap.Action (Returns)

variable {h h' h₀ h₁ h₂ : Heap} {p : Plan} {e f l r : Extent} {gone gone' : List Extent}
  {chain : List Nat} {i n x z units : Nat} {checks : Bool}

/-- Where the arena lies, and the two counts. No write to a unit or to the free list changes it. -/
def outline (h : Heap) : Nat × Nat × Nat × Nat :=
  (h.arena.base, h.arena.len, h.allocations, h.frees)

@[simp] theorem outline_setUnit (h : Heap) (i : Nat) (v : Int64) :
    (h.setUnit i v).outline = h.outline := by
  simp [outline, setUnit]

@[simp] theorem outline_setSucc (h : Heap) (x z : Nat) :
    (h.setSucc x z).outline = h.outline := by
  unfold setSucc
  split
  · rfl
  · exact outline_setUnit h _ _

@[simp] theorem outline_setPred (h : Heap) (z x : Nat) :
    (h.setPred z x).outline = h.outline := by
  unfold setPred
  split
  · rfl
  · exact outline_setUnit h _ _

@[simp] theorem outline_setTags (h : Heap) (i : Nat) (tag : Int64) (n : Nat) :
    (h.setTags i tag n).outline = h.outline := by simp [setTags]

@[simp] theorem outline_unlinked (h : Heap) (i : Nat) : (h.unlinked i).outline = h.outline := by
  simp [unlinked, join]

@[simp] theorem outline_pushed (h : Heap) (i n : Nat) : (h.pushed i n).outline = h.outline := by
  simp [pushed]

/-! ## What blocks keep -/

/-- The blocks of `p` other than `gone` hold in `h'` what they hold in `h`. -/
def Keeps (h h' : Heap) (p : Plan) (gone : List Extent) : Prop :=
  ∀ e ∈ p.blocks, e ∉ gone → ∀ j, e.Owns j → h'.unit j = h.unit j

theorem Keeps.mono (hk : h.Keeps h' p gone) (hg : ∀ e ∈ gone, e ∈ gone') : h.Keeps h' p gone' :=
  fun e he hn j hj => hk e he (fun h => hn (hg e h)) j hj

theorem Keeps.tagged (hk : h.Keeps h' p gone) (hr : h.Represents p)
    (hlen : h'.arena.len = h.arena.len) (he : e ∈ p.blocks) (hg : e ∉ gone) : h'.Tagged e :=
  (hr.tagged e he).congr hlen (hk e he hg _ (hr.valid.owns_start he))
    (hk e he hg _ (hr.valid.owns_last he))

/-- On the way from `h`, which represents `p`, to the next plan: the blocks `gone` are being
rewritten, and the free list visits `chain`. -/
structure Midway (h h' : Heap) (p : Plan) (gone : List Extent) (chain : List Nat) : Prop where
  outline : h'.outline = h.outline
  keeps : h.Keeps h' p gone
  links : h'.Linked chain
  sublist : chain.Sublist p.avail

namespace Midway

theorem refl (hr : h.Represents p) : Midway h h p [] p.avail :=
  ⟨rfl, fun _ _ _ _ _ => rfl, hr.links, .refl _⟩

theorem len (hm : Midway h h' p gone chain) : h'.arena.len = h.arena.len :=
  congrArg (·.2.1) hm.outline

theorem tagged (hm : Midway h h' p gone chain) (hr : h.Represents p) (he : e ∈ p.blocks)
    (hg : e ∉ gone) : h'.Tagged e :=
  hm.keeps.tagged hr hm.len he hg

theorem nodes (hm : Midway h h' p gone chain) (hr : h.Represents p) :
    Nodes h'.arena.len chain :=
  hm.len ▸ hr.valid.nodes.sublist hm.sublist

theorem unlink (hm : Midway h h' p gone chain) (hr : h.Represents p) (hi : i ∈ chain) :
    (FreeList.unlink i).Returns h' () (h'.unlinked i) ∧
      Midway h (h'.unlinked i) p gone (chain.erase i) := by
  refine ⟨hm.links.unlink_returns (hm.nodes hr) hi, ?_, ?_, ?_, ?_⟩
  · rw [outline_unlinked, hm.outline]
  · intro e he hg j hj
    rw [← hm.keeps e he hg j hj]
    refine hm.links.unit_unlinked (hm.nodes hr) hi fun a ha => ?_
    exact hr.valid.not_link he hj (hm.sublist.subset ha)
  · exact hm.links.unlinked (hm.nodes hr) hi
  · exact List.erase_sublist.trans hm.sublist

/-- No link of a node lies in a block that is no node. -/
theorem not_link (hm : Midway h h' p gone chain) (hr : h.Represents p) (he : e ∈ p.blocks)
    (hn : e.start ∉ chain) (hx : x ∈ chain) :
    ∃ f ∈ p.blocks, f.start = x ∧ minBlockUnits ≤ f.size ∧
      (f.stop ≤ e.start ∨ e.stop ≤ f.start) := by
  obtain ⟨f, hf, -, rfl, hs⟩ := hr.valid.exists_of_avail (hm.sublist.subset hx)
  refine ⟨f, hf, rfl, hs, (hr.valid.apart hf he).resolve_left ?_⟩
  rintro rfl
  exact hn hx

/-- Tags may be written anywhere in a block that has left the list. -/
theorem setTags (hm : Midway h h' p gone chain) (hr : h.Represents p) (he : e ∈ p.blocks)
    (hn : e.start ∉ chain) (tag : Int64) (h₀ : 0 < n) (hi : e.start ≤ i) (hin : i + n ≤ e.stop) :
    Midway h (h'.setTags i tag n) p (e :: gone) chain := by
  refine ⟨?_, fun f hf hg j hj => ?_, hm.links.congr rfl fun a ha => ?_, hm.sublist⟩
  · rw [outline_setTags, hm.outline]
  · simp only [List.mem_cons, not_or] at hg
    rw [← hm.keeps f hf hg.2 j hj]
    have ha := (hr.valid.apart hf he).resolve_left hg.1
    obtain ⟨h₁, h₂, -⟩ := hj
    exact unit_setTags _ (by omega) (by omega)
  · obtain ⟨f, -, rfl, hs, ha⟩ := hm.not_link hr he hn ha
    simp only [Extent.stop, minBlockUnits] at *
    exact ⟨unit_setTags _ (by omega) (by omega), unit_setTags _ (by omega) (by omega)⟩

theorem scrub (hm : Midway h h' p gone chain) (hr : h.Represents p) (he : e ∈ p.blocks)
    (hg : e ∉ gone) (hn : e.start ∉ chain) :
    ∃ h'', (Block.scrub ⟨e.start⟩).Returns h' () h'' ∧ Midway h h'' p (e :: gone) chain :=
  ⟨_, (hm.tagged hr he hg).scrub_returns,
    hm.setTags hr he hn 0 (hr.tagged e he).pos (Nat.le_refl _) (Nat.le_refl _)⟩

theorem mono (hm : Midway h h' p gone chain) (hg : ∀ e ∈ gone, e ∈ gone') :
    Midway h h' p gone' chain :=
  ⟨hm.outline, hm.keeps.mono hg, hm.links, hm.sublist⟩

theorem head_mem (hm : Midway h h' p gone chain) : h'.head = 0 ∨ h'.head ∈ chain := by
  rw [hm.links.head_eq]
  cases chain <;> simp

/-- A node on the list is a block that is still there, away from the one to be put in front. -/
theorem away (hm : Midway h h' p gone chain) (hr : h.Represents p)
    (ha : ∀ f ∈ p.blocks, f ∉ gone → f.stop ≤ i ∨ i + n ≤ f.start)
    (hg : ∀ f ∈ gone, f.start ∉ chain) (hx : x ∈ chain) : x + 4 ≤ i ∨ i + n ≤ x := by
  obtain ⟨f, hf, -, rfl, hs⟩ := hr.valid.exists_of_avail (hm.sublist.subset hx)
  have := ha f hf fun h => hg f h hx
  simp only [Extent.stop, minBlockUnits] at *
  omega

theorem fresh (hm : Midway h h' p gone chain) (hr : h.Represents p) (hn : minBlockUnits ≤ n)
    (hi : 0 < i) (hin : i + n ≤ h.arena.len)
    (ha : ∀ f ∈ p.blocks, f ∉ gone → f.stop ≤ i ∨ i + n ≤ f.start)
    (hg : ∀ f ∈ gone, f.start ∉ chain) : Fresh h'.arena.len i n chain := by
  have haway := fun x hx => hm.away hr ha hg (x := x) hx
  have hnodes := hm.nodes hr
  simp only [minBlockUnits] at hn
  refine ⟨hn, hm.len ▸ hin, ⟨?_, ?_, ?_, ?_⟩, fun x hx => ?_⟩
  · refine List.nodup_cons.mpr ⟨fun hx => ?_, hnodes.nodup⟩
    have := haway i hx
    omega
  · simp only [List.mem_cons, not_or]
    exact ⟨Nat.ne_of_lt hi, hnodes.ne_zero⟩
  · intro x hx
    rcases List.mem_cons.mp hx with rfl | hx
    · rw [hm.len]
      omega
    · exact hnodes.inside x hx
  · intro x hx hx₁
    rcases List.mem_cons.mp hx with rfl | hx <;> rcases List.mem_cons.mp hx₁ with h | hx₁
    · omega
    · have := haway _ hx₁
      omega
    · have := haway x hx
      omega
    · exact hnodes.apart x hx hx₁
  · have := haway x hx
    omega

/-- Space that no remaining block has a unit of becomes a free block in front of the list. -/
theorem push (hm : Midway h h' p gone chain) (hr : h.Represents p) (hn : minBlockUnits ≤ n)
    (hi : 0 < i) (hin : i + n ≤ h.arena.len)
    (ha : ∀ f ∈ p.blocks, f ∉ gone → f.stop ≤ i ∨ i + n ≤ f.start)
    (hg : ∀ f ∈ gone, f.start ∉ chain) :
    (FreeList.push i n).Returns h' () (h'.pushed i n) ∧ h.Keeps (h'.pushed i n) p gone ∧
      (h'.pushed i n).Tagged ⟨i, n, true⟩ ∧ (h'.pushed i n).Linked (i :: chain) := by
  have hf := hm.fresh hr hn hi hin ha hg
  have hhead : h'.head ≠ 0 → h'.head ∈ chain := fun h₀ => hm.head_mem.resolve_left h₀
  refine ⟨push_returns hi.ne' hf.inside hf.size fun h₀ => (hm.nodes hr).inside _ (hhead h₀), ?_,
    hf.tagged hm.head_mem, hm.links.pushed hf⟩
  intro f hfb hfg j hj
  rw [← hm.keeps f hfb hfg j hj]
  have hlink := fun h₀ => hr.valid.not_link hfb hj (hm.sublist.subset (hhead h₀))
  have hn₄ := hf.size
  have := ha f hfb hfg
  obtain ⟨h₁, h₂, -⟩ := hj
  exact unit_pushed (by omega) (by omega) (by omega) (by omega) fun h₀ => (hlink h₀).2

end Midway

end BareKernel.Heap
