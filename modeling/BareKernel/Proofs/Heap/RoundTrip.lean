import BareKernel.Heap.Layout
import BareKernel.Proofs.Heap.Bytes

/-! A block that is handed out and given back at once. What was left of it is its free neighbour on
the right, and it has no other one, for no two free blocks of the arena met before. So the two
become the block that they were, and of the whole heap only the order of the free list remembers
the call: that block is now the first. -/

namespace BareKernel

open Heap

namespace Heap.Plan

variable {p : Plan} {e : Extent} {len units i : Nat} {pre post : List Extent} {l r : Extent}

/-- The same blocks, with the free one at `i` the first to be looked at. -/
def fronted (p : Plan) (i : Nat) : Plan := { p with avail := i :: p.avail.erase i }

/-- A block starts where the one before it stops. -/
theorem Valid.stop_eq (hv : p.Valid len) (hb : p.blocks = pre ++ l :: e :: post) :
    l.stop = e.start := by
  have ht := hv.tiles
  rw [hb] at ht
  obtain ⟨a, -, -, he, -⟩ := tiles_append.mp ht
  exact he.symm

/-- No free block has a free neighbour. -/
theorem Valid.not_free_around (hv : p.Valid len) (hb : p.blocks = pre ++ l :: e :: r :: post)
    (hf : e.free = true) : l.free = false ∧ r.free = false := by
  have hc := hv.coalesced
  rw [hb, List.isChain_append] at hc
  obtain ⟨-, hc, -⟩ := hc
  obtain ⟨hl, hc⟩ := List.isChain_cons_cons.mp hc
  obtain ⟨hr, -⟩ := List.isChain_cons_cons.mp hc
  simpa [hf] using And.intro hl hr

/-- A taken block becomes the free block `e` of another plan, which has the same blocks around it
and the same other nodes. -/
theorem Around.release_eq_fronted {q : Plan} {t x : Extent} {tail : List Extent}
    (ha : q.Around pre l t x tail) (hv : q.Valid len) (hl : l.free = false)
    (hm : q.merged t.start = e)
    (hb : p.blocks = pre ++ l :: e :: ([x].filter (!·.free) ++ tail))
    (hrest : q.avail.diff (([x].filter (·.free)).map (·.start)) = p.avail.erase e.start) :
    q.release t.start = p.fronted e.start := by
  have hblocks : (q.release t.start).blocks = p.blocks := by
    rw [ha.release_blocks hv, hm, hb]
    simp [hl]
  have hgone : q.neighbours t.start = [x].filter (·.free) := by
    refine (ha.neighbours_eq hv).trans ?_
    simp [List.filter_cons, hl]
  have havail : (q.release t.start).avail = e.start :: p.avail.erase e.start := by
    rw [release, hm, hgone, hrest]
  calc q.release t.start
      = ⟨(q.release t.start).blocks, (q.release t.start).avail⟩ := rfl
    _ = p.fronted e.start := by rw [hblocks, havail, fronted]

/-- A block that was cut in two takes in its rest again. -/
theorem Valid.release_take_split (hv : p.Valid len) (hb : p.blocks = pre ++ l :: e :: r :: post)
    (hf : e.free = true) (hu : minBlockUnits ≤ units) (hx : minBlockUnits ≤ e.size - units) :
    (p.take e.start units).release e.start = p.fronted e.start := by
  have he : e ∈ p.blocks := by simp [hb]
  have hle : units ≤ e.size := by
    simp only [minBlockUnits] at hx
    omega
  have hvt := hv.take he hf hu hle
  have hstop : l.stop = e.start := hv.stop_eq hb
  obtain ⟨hl, -⟩ := hv.not_free_around hb hf
  have hblocks : (p.take e.start units).blocks = pre ++ [l] ++ e.cut units ++ r :: post :=
    take_blocks hv (by simp [hb]) units
  have hcut : e.cut units = [⟨e.start, units, false⟩, ⟨e.start + units, e.size - units, true⟩] :=
    if_pos hx
  have ha : (p.take e.start units).Around pre l ⟨e.start, units, false⟩
      ⟨e.start + units, e.size - units, true⟩ (r :: post) := by
    refine ⟨?_, hstop, rfl, rfl⟩
    rw [hblocks, hcut]
    simp
  have hmerged : (p.take e.start units).merged e.start = e := by
    refine (ha.merged_eq hvt).trans ?_
    obtain ⟨start, size, free⟩ := e
    obtain rfl : free = true := hf
    simpa [hl] using Nat.add_sub_of_le hle
  have havail : (p.take e.start units).avail = (e.start + units) :: p.avail.erase e.start := by
    rw [Plan.take, hv.sizeAt_eq he]
    exact if_pos hx
  exact ha.release_eq_fronted hvt hl hmerged (by simp [hb]) (by simp [havail])

/-- A block that was handed out as it is has no free neighbour. -/
theorem Valid.release_take_whole (hv : p.Valid len) (hb : p.blocks = pre ++ l :: e :: r :: post)
    (hf : e.free = true) (hu : minBlockUnits ≤ units) (hle : units ≤ e.size)
    (hx : ¬minBlockUnits ≤ e.size - units) :
    (p.take e.start units).release e.start = p.fronted e.start := by
  have he : e ∈ p.blocks := by simp [hb]
  have hvt := hv.take he hf hu hle
  obtain ⟨hl, hr⟩ := hv.not_free_around hb hf
  have hafter : p.blocks = (pre ++ [l]) ++ e :: r :: post := by simp [hb]
  have hstop : l.stop = e.start := hv.stop_eq hb
  have hnext : e.stop = r.start := hv.stop_eq hafter
  have hblocks : (p.take e.start units).blocks = pre ++ [l] ++ e.cut units ++ r :: post :=
    take_blocks hv hafter units
  have hcut : e.cut units = [⟨e.start, e.size, false⟩] := if_neg hx
  have ha : (p.take e.start units).Around pre l ⟨e.start, e.size, false⟩ r post := by
    refine ⟨?_, hstop, hnext, rfl⟩
    rw [hblocks, hcut]
    simp
  have hmerged : (p.take e.start units).merged e.start = e := by
    refine (ha.merged_eq hvt).trans ?_
    obtain ⟨start, size, free⟩ := e
    obtain rfl : free = true := hf
    simp [hl, hr]
  have havail : (p.take e.start units).avail = p.avail.erase e.start := by
    rw [Plan.take, hv.sizeAt_eq he]
    exact if_neg hx
  exact ha.release_eq_fronted hvt hl hmerged (by simp [hr, hb]) (by simp [hr, havail])

/-- A free block that is handed out and given back at once. -/
theorem Valid.release_take (hv : p.Valid len) (he : e ∈ p.blocks) (hf : e.free = true)
    (hu : minBlockUnits ≤ units) (hle : units ≤ e.size) :
    (p.take e.start units).release e.start = p.fronted e.start := by
  obtain ⟨pre, l, r, post, hb⟩ := hv.around he (hv.minBlockUnits_le he hf)
  by_cases hx : minBlockUnits ≤ e.size - units
  · exact hv.release_take_split hb hf hu hx
  · exact hv.release_take_whole hb hf hu hle hx

end Heap.Plan

/-- The heap has the blocks that it had, and the free one with its payload at `addr` now comes
first. -/
def KernelMemory.Refronts (m m' : KernelMemory) (addr : Nat) : Prop :=
  ∃ h p h' i, m.heap = some h ∧ h.Represents p ∧ i ∈ p.avail ∧
    addr = payloadOf h.arena.base i ∧ m'.heap = some h' ∧ h'.arena.base = h.arena.base ∧
    h'.Represents (p.fronted i)

namespace Session.Follows

variable {s : Session} {h h₁ : Heap} {p : Plan} {e : Extent} {m₁ : KernelMemory}
  {addr size units : Nat} {live : List Loan} {bytes left : List UInt8}

/-- The free block that serves a request. -/
theorem exists_serving (hf : s.Follows h p)
    (ha : s.memory.allocate size = (.ok (some addr), m₁)) :
    ∃ e units h₁, e ∈ p.blocks ∧ e.free = true ∧ minBlockUnits ≤ units ∧ units ≤ e.size ∧
      addr = payloadOf h.arena.base e.start ∧ h₁.arena.base = h.arena.base ∧
      (Session.mk m₁ (⟨addr, size⟩ :: s.live)).Follows h₁ (p.take e.start units) := by
  obtain ⟨h₁, hm, hs, hf₁⟩ := hf.allocate size
  rw [Session.step, ha] at hf₁
  rw [ha] at hm
  rcases Plan.allocate_cases hf.represents.valid size with
      hn | ⟨e, he, units, hfree, -, hu, -, hle, hn⟩
  · simp [hn] at hm
  · rw [hn] at hm hf₁
    obtain ⟨hr, -⟩ := Prod.mk.inj hm
    have haddr : addr = payloadOf h.arena.base e.start := by simpa using hr
    exact ⟨e, units, h₁, he, hfree, minBlockUnits_le_of_unitsFor hu, hle, haddr, hs.base, hf₁⟩

/-- Whatever the payload holds by then, giving it back brings the block to the front. -/
theorem refronts (hf : s.Follows h p) (he : e ∈ p.blocks) (hfree : e.free = true)
    (hu : minBlockUnits ≤ units) (hle : units ≤ e.size)
    (haddr : addr = payloadOf h.arena.base e.start) (hb : h₁.arena.base = h.arena.base)
    (hf₁ : (Session.mk m₁ live).Follows h₁ (p.take e.start units))
    (hl : addr ∈ live.map (·.addr)) :
    ∃ m₂, m₁.tryFree addr = (.ok (), m₂) ∧ m₁.free addr = (.ok (), m₂) ∧
      s.memory.Refronts m₂ addr := by
  obtain ⟨h₂, hm, hs, -⟩ := hf₁.give (.inr (.inr hl))
  have hplan : (p.take e.start units).give h₁.arena.base addr = p.fronted e.start := by
    rw [hb, haddr, Plan.give_payload]
    exact hf.represents.valid.release_take he hfree hu hle
  have hmem : e.start ∈ p.avail := (hf.represents.valid.mem_avail _).mpr ⟨e, he, hfree, rfl⟩
  rw [hplan] at hs
  exact ⟨_, hm, KernelMemory.free_of_tryFree hm, h, p, h₂, e.start, hf.heap, hf.represents, hmem,
    haddr, rfl, hs.base.trans hb, hs.represents⟩

theorem free_allocate (hf : s.Follows h p)
    (ha : s.memory.allocate size = (.ok (some addr), m₁)) :
    ∃ m₂, m₁.tryFree addr = (.ok (), m₂) ∧ m₁.free addr = (.ok (), m₂) ∧
      s.memory.Refronts m₂ addr := by
  obtain ⟨e, units, h₁, he, hfree, hu, hle, haddr, hb, hf₁⟩ := hf.exists_serving ha
  exact hf.refronts he hfree hu hle haddr hb hf₁ List.mem_cons_self

/-- A value is moved into its block and leaves its bytes there, and neither reaches a tag. -/
theorem freeObject_allocateObject (hf : s.Follows h p) {align : Nat}
    (hleft : left.length ≤ bytes.length)
    (ha : s.memory.allocateObject align bytes = (.ok addr, m₁)) :
    ∃ m₂, m₁.freeObject addr left = (.ok (), m₂) ∧ s.memory.Refronts m₂ addr := by
  rw [KernelMemory.allocateObject] at ha
  split at ha
  · simp at ha
  cases hm : s.memory.allocate (max bytes.length 1) with
  | mk r m =>
    rw [hm] at ha
    rcases r with _ | _ | a
    · simp at ha
    · simp at ha
    obtain ⟨hr, rfl⟩ := Prod.mk.inj ha
    obtain rfl : a = addr := by simpa using hr
    obtain ⟨e, units, h₁, he, hfree, hu, hle, haddr, hb, hf₁⟩ := hf.exists_serving hm
    have hl : Loan.mk a (max bytes.length 1) ∈
        Loan.mk a (max bytes.length 1) :: s.live := List.mem_cons_self
    have hin : bytes.length ≤ max bytes.length 1 := Nat.le_max_left _ _
    obtain ⟨h₂, hf₂, hb₂⟩ := hf₁.setBytes hl (Nat.le_refl a)
      (Nat.add_le_add_left hin a)
    obtain ⟨h₃, hf₃, hb₃⟩ := hf₂.setBytes hl (Nat.le_refl a)
      (Nat.add_le_add_left (hleft.trans hin) a)
    obtain ⟨m₂, -, hfreed, href⟩ := hf.refronts he hfree hu hle haddr
      (hb₃.trans (hb₂.trans hb)) hf₃ (List.mem_map_of_mem hl)
    exact ⟨m₂, hfreed, href⟩

end Session.Follows

/-- After any permitted calls, memory that is handed out and given back at once leaves the blocks
as they were and their free list too, but for the block that served the request, which is now the
first of it. So does a value that is moved into memory of its own and dropped, whatever it leaves
in its bytes. -/
theorem Session.allocate_free_neutral {m m' : KernelMemory} {region : Region}
    {record : Log.Record} {calls : List Session.Call} {s : Session}
    (hi : m.init region = (.ok record, m')) (hp : (Session.mk m' []).Permits calls)
    (hs : ((Session.mk m' []).run calls).2 = s) :
    (∀ size addr m₁, s.memory.allocate size = (.ok (some addr), m₁) →
        ∃ m₂, m₁.tryFree addr = (.ok (), m₂) ∧ m₁.free addr = (.ok (), m₂) ∧
          s.memory.Refronts m₂ addr) ∧
      ∀ align bytes left addr m₁, left.length ≤ bytes.length →
        s.memory.allocateObject align bytes = (.ok addr, m₁) →
          ∃ m₂, m₁.freeObject addr left = (.ok (), m₂) ∧ s.memory.Refronts m₂ addr := by
  obtain ⟨h₀, hf₀, -⟩ := Session.follows_init hi
  obtain ⟨h, -, -, hf, -⟩ := hf₀.run hp
  rw [hs] at hf
  exact ⟨fun size addr m₁ ha => hf.free_allocate ha,
    fun align bytes left addr m₁ hleft ha => hf.freeObject_allocateObject hleft ha⟩

theorem Session.allocate_free_neutral_small : smallSession.Permits smallCalls ∧
    (∃ addr m₁ m₂, (smallSession.run smallCalls).2.memory.allocate 8 = (.ok (some addr), m₁) ∧
      m₁.free addr = (.ok (), m₂) ∧ (smallSession.run smallCalls).2.memory.Refronts m₂ addr) ∧
    ∃ addr m₁ m₂,
      (smallSession.run smallCalls).2.memory.allocateObject 4 [1, 2, 3, 4] = (.ok addr, m₁) ∧
      m₁.freeObject addr [9, 9, 9, 9] = (.ok (), m₂) ∧
      (smallSession.run smallCalls).2.memory.Refronts m₂ addr := by
  have hp : smallSession.Permits smallCalls := by decide +kernel
  obtain ⟨hbytes, hobject⟩ := allocate_free_neutral init_small hp rfl
  have ha : (smallSession.run smallCalls).2.memory.allocate 8 = (.ok (some 4120),
      ((smallSession.run smallCalls).2.memory.allocate 8).2) := by rfl
  obtain ⟨m₂, -, hfree, href⟩ := hbytes 8 4120 _ ha
  have ho : (smallSession.run smallCalls).2.memory.allocateObject 4 [1, 2, 3, 4] = (.ok 4120,
      ((smallSession.run smallCalls).2.memory.allocateObject 4 [1, 2, 3, 4]).2) := by rfl
  obtain ⟨m₃, hdrop, href₃⟩ := hobject 4 _ [9, 9, 9, 9] 4120 _ (by decide) ho
  exact ⟨hp, ⟨4120, _, m₂, ha, hfree, href⟩, 4120, _, m₃, ho, hdrop, href₃⟩

end BareKernel
