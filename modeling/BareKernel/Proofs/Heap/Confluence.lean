import BareKernel.Proofs.Heap.Guarantees

/-! The order in which blocks are given back does not matter to the arena. A tiling without free
neighbours is known from its taken blocks: between two of them there is one free block or none. So
two plans with the same blocks handed out are the same but for the order of their free lists. -/

namespace BareKernel

namespace Heap

variable {a b len : Nat} {e f g : Extent} {xs ys : List Extent} {p p' : Plan}

/-! ## Tilings -/

/-- No two free blocks next to each other. -/
abbrev Coalesced (xs : List Extent) : Prop :=
  xs.IsChain fun e f => ¬(e.free = true ∧ f.free = true)

/-- The taken blocks of one tiling are among those of another. -/
def TakenIn (xs ys : List Extent) : Prop := ∀ e ∈ xs, e.free = false → e ∈ ys

theorem Tiles.eq_nil (ht : Tiles a xs a) (hpos : ∀ e ∈ xs, 0 < e.size) : xs = [] := by
  cases xs with
  | nil => rfl
  | cons e xs =>
    have hb := ht.bounds (List.mem_cons_self (a := e) (l := xs))
    have he := hpos e List.mem_cons_self
    simp only [Extent.stop] at hb
    omega

/-- A first free block ends where the other tiling has a block that starts, or at the very end. -/
theorem Tiles.stop_le (hx : Tiles a (e :: xs) b) (hy : Tiles a (f :: ys) b)
    (hc : Coalesced (e :: xs)) (he : e.free = true) (hf : f.free = true)
    (hin : TakenIn (e :: xs) (f :: ys)) : f.stop ≤ e.stop := by
  cases xs with
  | nil =>
    have hend : e.stop = b := hx.2
    exact hend ▸ (hy.bounds List.mem_cons_self).2
  | cons g xs =>
    have hg : g.free = false := by
      simpa [he] using (List.isChain_cons_cons.mp hc).1
    have hne : g ≠ f := fun h => by simp [h, hf] at hg
    have hmem := (List.mem_cons.mp (hin g (by simp) hg)).resolve_left hne
    have hstart : g.start = e.stop := hx.2.1
    exact hstart ▸ (hy.2.bounds hmem).1

/-- A first taken block is the first one of any tiling that has it. -/
theorem Tiles.eq_head (hx : Tiles a (e :: xs) b) (hy : Tiles a (f :: ys) b)
    (hpos : 0 < f.size) (he : e ∈ f :: ys) : e = f := by
  refine (List.mem_cons.mp he).resolve_right fun hm => ?_
  have hle := (hy.2.bounds hm).1
  have h₁ : e.start = a := hx.1
  have h₂ : f.start = a := hy.1
  simp only [Extent.stop] at hle
  omega

theorem TakenIn.tail (hxy : TakenIn (e :: xs) (e :: ys)) (hx : Tiles a (e :: xs) b)
    (hpos : 0 < e.size) : TakenIn xs ys := by
  intro g hg hgf
  refine (List.mem_cons.mp (hxy g (List.mem_cons_of_mem e hg) hgf)).resolve_left ?_
  rintro rfl
  have hle := (hx.2.bounds hg).1
  simp only [Extent.stop] at hle
  omega

/-- A tiling without free neighbours is known from its taken blocks. -/
theorem Tiles.ext (hx : Tiles a xs b) (hy : Tiles a ys b) (hpx : ∀ e ∈ xs, 0 < e.size)
    (hpy : ∀ e ∈ ys, 0 < e.size) (hcx : Coalesced xs) (hcy : Coalesced ys)
    (hxy : TakenIn xs ys) (hyx : TakenIn ys xs) : xs = ys := by
  induction xs generalizing a ys with
  | nil =>
    obtain rfl : a = b := hx
    exact (hy.eq_nil hpy).symm
  | cons e xs ih =>
    cases ys with
    | nil =>
      obtain rfl : a = b := hy
      exact hx.eq_nil hpx
    | cons f ys =>
      have hpe := hpx e List.mem_cons_self
      have hpf := hpy f List.mem_cons_self
      -- two free ones end together, and a taken one is in both tilings
      have hef : e = f := by
        by_cases he : e.free = true
        · by_cases hf : f.free = true
          · have hle := hx.stop_le hy hcx he hf hxy
            have hge := hy.stop_le hx hcy hf he hyx
            have hstart : e.start = f.start := hx.1.trans hy.1.symm
            obtain ⟨start, size, free⟩ := e
            obtain ⟨start', size', free'⟩ := f
            simp only [Extent.stop] at *
            simp only [Extent.mk.injEq]
            exact ⟨hstart, by omega, he.trans hf.symm⟩
          · exact (hy.eq_head hx hpe (hyx f List.mem_cons_self (eq_false_of_ne_true hf))).symm
        · exact hx.eq_head hy hpf (hxy e List.mem_cons_self (eq_false_of_ne_true he))
      subst hef
      rw [ih hx.2 hy.2 (fun g hg => hpx g (List.mem_cons_of_mem e hg))
        (fun g hg => hpy g (List.mem_cons_of_mem e hg)) hcx.tail hcy.tail (hxy.tail hx hpe)
        (hyx.tail hy hpe)]

namespace Plan

/-- The sentinels, and what is handed out. -/
theorem Valid.takenIn (hv : p.Valid len) (hv' : p'.Valid len)
    (hl : ∀ e, p.Lent e → p'.Lent e) : TakenIn p.blocks p'.blocks := by
  intro e he hf
  rcases hv.inner e he with rfl | rfl | hs
  · exact hv'.leading_mem
  · exact hv'.trailing_mem
  · exact (hl e ⟨he, hf, hs⟩).1

/-- Plans with the same blocks handed out differ in the order of their free lists alone. -/
theorem Valid.agree (hv : p.Valid len) (hv' : p'.Valid len) (hl : ∀ e, p.Lent e ↔ p'.Lent e) :
    p.blocks = p'.blocks ∧ p.avail.Perm p'.avail := by
  have hpos : ∀ {q : Plan}, q.Valid len → ∀ e ∈ q.blocks, 0 < e.size := fun hq e he =>
    Nat.lt_of_lt_of_le (by decide) (hq.sentinelUnits_le he)
  have hb : p.blocks = p'.blocks := hv.tiles.ext hv'.tiles (hpos hv) (hpos hv') hv.coalesced
    hv'.coalesced (hv.takenIn hv' fun e => (hl e).mp) (hv'.takenIn hv fun e => (hl e).mpr)
  refine ⟨hb, (List.perm_ext_iff_of_nodup hv.nodup hv'.nodup).mpr fun i => ?_⟩
  rw [hv.mem_avail, hv'.mem_avail, hb]

end Plan

end Heap

/-! ## Giving back in any order -/

namespace Session

open Heap

variable {m m' : KernelMemory} {region : Region} {record : Log.Record} {s : Session} {h : Heap}
  {p : Plan} {calls : List Call} {addrs one other : List Nat}

/-- The blocks that are given back one after another are those that are handed out no more. -/
theorem Follows.frees (hf : s.Follows h p) (ha : ∀ a ∈ addrs, a ∈ s.live.map (·.addr))
    (hn : addrs.Nodup) :
    (∀ a ∈ (s.run (addrs.map .free)).1, a.Succeeded) ∧
      ∃ h' p', (s.run (addrs.map .free)).2.memory = { s.memory with heap := some h' } ∧
        (s.run (addrs.map .free)).2.Follows h' p' ∧ h'.arena.len = h.arena.len ∧
        ∀ e, p'.Lent e ↔ p.Lent e ∧ payloadOf h.arena.base e.start ∉ addrs := by
  induction addrs generalizing s h p with
  | nil =>
    have hm : s.memory = { s.memory with heap := some h } := by rw [← hf.heap]
    exact ⟨fun a ha => absurd ha List.not_mem_nil, h, p, hm, hf, rfl, by simp⟩
  | cons a addrs ih =>
    obtain ⟨hhead, hrest⟩ := List.forall_mem_cons.mp ha
    obtain ⟨hna, hn⟩ := List.nodup_cons.mp hn
    have hc : s.Returnable a := .inr (.inr hhead)
    obtain ⟨h₁, hanswer, hm₁, hf₁, hb₁, hl₁, -⟩ := hf.step (c := .free a) hc
    have hlive : ∀ b ∈ addrs, b ∈ (s.step (.free a)).2.live.map (·.addr) := fun b hb =>
      mem_revoke.mpr ⟨hrest b hb, fun h => hna (h ▸ hb)⟩
    obtain ⟨hok, h₂, p₂, hm₂, hf₂, hl₂, hlent⟩ := ih hf₁ hlive hn
    have hfirst : (s.step (.free a)).1.Succeeded := by
      rw [hanswer]
      exact Answer.succeeded_of_perform p _ _
    refine ⟨List.forall_mem_cons.mpr ⟨hfirst, hok⟩, h₂, p₂, ?_, hf₂, hl₂.trans hl₁, fun e => ?_⟩
    · rw [hm₁] at hm₂
      exact hm₂
    · have hgive := hf.lent_give (f := e) hc
      rw [hlent, hb₁, List.mem_cons, not_or, ← and_assoc]
      exact and_congr_left fun _ => hgive

theorem Follows.not_lent (hf : s.Follows h p) (hn : s.live = []) (e : Extent) : ¬p.Lent e := by
  intro he
  have hm := (hf.live _).mpr ⟨e, he, rfl⟩
  rw [hn] at hm
  exact List.not_mem_nil hm

/-- After any permitted calls, the same pointers given back in two orders lead to the same blocks
and the same nodes of the free list, however these are linked. If nothing is held any more then, all
between the sentinels is one free block. -/
theorem frees_commute (hi : m.init region = (.ok record, m'))
    (hp : (Session.mk m' []).Permits calls) (hs : ((Session.mk m' []).run calls).2 = s)
    (hone : ∀ a ∈ one, a ∈ s.live.map (·.addr)) (hn : one.Nodup) (hperm : one.Perm other) :
    (∀ a ∈ (s.run (one.map .free)).1, a.Succeeded) ∧
      (∀ a ∈ (s.run (other.map .free)).1, a.Succeeded) ∧
      ∃ h h' p p', (s.run (one.map .free)).2.memory = { m with heap := some h } ∧
        (s.run (other.map .free)).2.memory = { m with heap := some h' } ∧
        h.Represents p ∧ h'.Represents p' ∧ p.blocks = p'.blocks ∧ p.avail.Perm p'.avail ∧
        ((s.run (one.map .free)).2.live = [] →
          p = .initial (m.ram.bytesWithin region / unitBytes) ∧
          p' = .initial (m.ram.bytesWithin region / unitBytes)) := by
  obtain ⟨h₀, hf₀, hm₀, -, hl₀, hmin⟩ := follows_init hi
  obtain ⟨h, -, hm, hf, -, hl⟩ := hf₀.run hp
  rw [hs] at hf hm
  have hother : ∀ a ∈ other, a ∈ s.live.map (·.addr) := fun a ha => hone a (hperm.mem_iff.mpr ha)
  obtain ⟨hok₁, h₁, p₁, hm₁, hf₁, hl₁, hlent₁⟩ := hf.frees hone hn
  obtain ⟨hok₂, h₂, p₂, hm₂, hf₂, hl₂, hlent₂⟩ := hf.frees hother (hperm.nodup_iff.mp hn)
  have hlent : ∀ e, p₁.Lent e ↔ p₂.Lent e := fun e => by
    rw [hlent₁, hlent₂, hperm.mem_iff]
  have hv₁ := hf₁.represents.valid
  have hv₂ := hf₂.represents.valid
  rw [hl₁, hl] at hv₁
  rw [hl₂, hl] at hv₂
  obtain ⟨hblocks, havail⟩ := hv₁.agree hv₂ hlent
  refine ⟨hok₁, hok₂, h₁, h₂, p₁, p₂, ?_, ?_, hf₁.represents, hf₂.represents, hblocks, havail,
    fun hnil => ?_⟩
  · rw [hm₁, hm, hm₀]
  · rw [hm₂, hm, hm₀]
  · have hnone := hf₁.not_lent hnil
    rw [← hl₀]
    exact ⟨hv₁.eq_initial hmin hnone, hv₂.eq_initial hmin fun e he => hnone e ((hlent e).mpr he)⟩

/-- Given back from the first block on, and from the second one on. -/
theorem frees_commute_small : smallSession.Permits threeBlocks ∧
    ∃ h h', ((smallSession.run threeBlocks).2.run
        ([4120, 4152, 4184].map .free)).2.memory.heap = some h ∧
      ((smallSession.run threeBlocks).2.run
        ([4152, 4184, 4120].map .free)).2.memory.heap = some h' ∧
      h.Represents (.initial 16) ∧ h'.Represents (.initial 16) := by
  have hp : smallSession.Permits threeBlocks := by decide +kernel
  have hperm : [4120, 4152, 4184].Perm [4152, 4184, 4120] := by decide
  obtain ⟨-, -, h, h', p, p', hm, hm', hr, hr', -, -, hend⟩ :=
    frees_commute init_small hp rfl (by decide +kernel) (by decide) hperm
  obtain ⟨rfl, rfl⟩ := hend (by decide +kernel)
  exact ⟨hp, h, h', congrArg (·.heap) hm, congrArg (·.heap) hm', hr, hr'⟩

end Session

end BareKernel
