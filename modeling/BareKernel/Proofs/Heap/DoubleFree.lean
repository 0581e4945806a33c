import BareKernel.Proofs.Heap.Effects
import BareKernel.Proofs.Heap.Damage

/-! A pointer that was given back is not taken back again. Giving a block back writes free tags,
zeros and links, so that a unit which is no taken block's tag does not become one, whatever is
merged with what; and the header of the block that is given back is no taken block's tag any more,
be it that a free block starts there or that it lies within one. -/

namespace BareKernel

namespace Heap

namespace Action

variable {α β : Type} {x : Action α} {f : α → Action β} {c : Prop}

/-- A run that starts with `P` and returns ends with `Q`. -/
def Ensures (x : Action α) (P : Heap → Prop) (Q : α → Heap → Prop) : Prop :=
  ∀ ⦃h a h'⦄, x.Returns h a h' → P h → Q a h'

namespace Ensures

variable {a : α} {P P' : Heap → Prop} {Q : α → Heap → Prop} {R : β → Heap → Prop}

theorem bind (hx : x.Ensures P Q) (hf : ∀ a, (f a).Ensures (Q a) R) : (x >>= f).Ensures P R := by
  intro h b h₂ hr hp
  obtain ⟨a, h₁, hr₁, hr₂⟩ := hr.of_bind
  exact hf a hr₂ (hx hr₁ hp)

theorem pre (hx : x.Ensures P Q) (hP : ∀ h, P' h → P h) : x.Ensures P' Q :=
  fun h _ _ hr hp => hx hr (hP h hp)

theorem pure (hP : ∀ h, P h → Q a h) : (Pure.pure a : Action α).Ensures P Q := by
  intro h b h' hr hp
  cases hr
  exact hP h hp

theorem ite [Decidable c] {y : Action α} (hx : x.Ensures P Q) (hy : y.Ensures P Q) :
    (if c then x else y).Ensures P Q := by
  split
  · exact hx
  · exact hy

/-- The failure past which the action goes on returns nothing. -/
theorem past [Decidable c] {e : Failure} {k : Unit → Action α} (hk : ∀ u, (k u).Ensures P Q) :
    (if c then Action.fail e >>= k else k ()).Ensures P Q :=
  .ite (fun _ _ _ hr => nomatch hr.of_bind) (hk ())

/-- What has nothing to do with the heap is not lost. -/
theorem or_left (hx : x.Ensures P Q) (c : Prop) :
    x.Ensures (fun h => c ∨ P h) fun a h => c ∨ Q a h :=
  fun _ _ _ hr hp => hp.imp_right (hx hr)

end Ensures

theorem Reads.ensures (hx : x.Reads) (P : Heap → Prop) : x.Ensures P fun _ => P := by
  intro h a h' hr hp
  have hsame : (x.run h).2 = h := hx h
  rw [hr] at hsame
  subst hsame
  exact hp

end Action

open Heap.Action (Ensures Returns Reports)

/-- The unit at `j` is no tag of a taken block. -/
def Vacant (h : Heap) (j : Nat) : Prop := isTakenTag (h.unit j) = false

variable {h h' : Heap} {i j n x z : Nat} {v : Int64}

/-! ## What is written -/

theorem isTakenTag_ofNat (hn : n < 0x2000000000000000) : isTakenTag (Int64.ofNat n) = false := by
  have hi : (Int64.ofNat n).toInt = n := Int64.toInt_ofNat_of_lt (by omega)
  rw [isTakenTag, hi]
  simp

theorem Vacant.setUnit (hv : isTakenTag v = false) (hj : h.Vacant j) :
    (h.setUnit i v).Vacant j := by
  unfold Vacant at *
  by_cases hij : i = j
  · subst hij
    by_cases hi : i < h.arena.len
    · rwa [unit_setUnit_self v hi]
    · have hout : h.arena.units.setIfInBounds i v = h.arena.units :=
        Array.setIfInBounds_eq_of_size_le (Nat.not_lt.mp hi)
      simpa only [unit, Heap.setUnit, Memory.setUnit, hout] using hj
  · rwa [unit_setUnit_ne v hij]

theorem Vacant.setSucc (hz : z < 0x2000000000000000) (hj : h.Vacant j) :
    (h.setSucc x z).Vacant j := by
  unfold Heap.setSucc
  split
  · exact hj
  · exact hj.setUnit (isTakenTag_ofNat hz)

theorem Vacant.setPred (hx : x < 0x2000000000000000) (hj : h.Vacant j) :
    (h.setPred z x).Vacant j := by
  unfold Heap.setPred
  split
  · exact hj
  · exact hj.setUnit (isTakenTag_ofNat hx)

theorem Vacant.detached (hd : h.Detachable i) (hj : h.Vacant j) : (h.detached i).Vacant j := by
  have hlen := h.arena.len_lt
  have hbefore := hd.before
  have hafter := hd.after
  exact (hj.setSucc (by omega)).setPred (by omega)

theorem Vacant.fronted (hp : h.Pushable i n) (hj : j = i ∨ h.Vacant j) :
    (h.fronted i n).Vacant j := by
  have hlen := h.arena.len_lt
  have hinside := hp.inside
  have hhead := hp.head
  have hroom := hp.room
  have htag : (h.setTags i (freeTag n) n).Vacant j := by
    have hn : isTakenTag (freeTag n) = false := isTakenTag_ofNat (by omega)
    rcases hj with rfl | hj
    · rw [Vacant, unit_setTags_header _ (by omega)]
      exact hn
    · exact (hj.setUnit hn).setUnit hn
  exact ((htag.setUnit (isTakenTag_ofNat (by omega))).setUnit
    (isTakenTag_ofNat (by omega))).setPred (by omega)

/-! ## What giving back leaves -/

theorem write_vacates (hv : isTakenTag v = false) :
    (Action.write i v).Ensures (fun h => j = i ∨ h.Vacant j) fun _ h => h.Vacant j := by
  intro h a h' hr hj
  obtain ⟨hi, rfl⟩ := (Action.ReturnsIff.write i v).of_returning hr
  rcases hj with rfl | hj
  · rwa [Vacant, unit_setUnit_self v hi]
  · exact hj.setUnit hv

theorem scrub_vacates (b : Block) :
    b.scrub.Ensures (fun h => j = b.index ∨ h.Vacant j) fun _ h => h.Vacant j :=
  .bind ((Block.footerIndex_reads b).ensures _) fun _ =>
    .bind (write_vacates rfl) fun _ => (write_vacates rfl).pre fun _ => .inr

theorem countFree_vacant : (Action.countFree (pure ())).Ensures (·.Vacant j)
    fun _ h => h.Vacant j := by
  intro h a h' hr hj
  cases hr
  exact hj

theorem unlink_vacant : (FreeList.unlink i).Ensures (·.Vacant j) fun _ h => h.Vacant j := by
  intro h a h' hr hj
  obtain ⟨hd, rfl⟩ := (unlink_returnsIff h i).of_returning hr
  exact hj.detached hd

theorem push_vacates :
    (FreeList.push i n).Ensures (fun h => j = i ∨ h.Vacant j) fun _ h => h.Vacant j := by
  intro h a h' hr hj
  obtain ⟨hp, rfl⟩ := (push_returnsIff h i n).of_returning hr
  exact .fronted hp hj

/-- Where the merged block starts is left to `push`. -/
theorem absorbLeft_vacates (left : Block) (size : Nat) :
    (absorbLeft ⟨i⟩ left size).Ensures (fun h => j = i ∨ h.Vacant j)
      fun r h => j = r.1 ∨ h.Vacant j := by
  refine .bind ((Block.isFree_reads left).ensures _) fun _ => .ite ?_ (.pure fun _ hj => hj)
  refine .bind (unlink_vacant.or_left (j = i)) fun _ => .bind (scrub_vacates ⟨i⟩) fun _ => ?_
  exact .bind ((Block.size_reads left).ensures _) fun _ =>
    .bind ((Action.Reads.plus _ _).ensures _) fun _ => .pure fun _ => .inr

theorem absorbRight_vacant (right : Block) (size : Nat) :
    (absorbRight right size).Ensures (·.Vacant j) fun _ h => h.Vacant j := by
  refine .bind ((Block.isFree_reads right).ensures _) fun _ => .ite ?_ (.pure fun _ hj => hj)
  refine .bind ((Block.size_reads right).ensures _) fun _ => .bind unlink_vacant fun _ => ?_
  exact .bind ((scrub_vacates right).pre fun _ => .inr) fun _ => (Action.Reads.plus _ _).ensures _

/-- The header of the block, and every unit that was vacant before. -/
theorem giveBack_vacates {checks : Bool} {base len addr : Nat}
    (hx : indexOfPayload base len addr = .ok i) :
    (giveBack checks base len addr).Ensures (fun h => j = i ∨ h.Vacant j)
      fun _ h => h.Vacant j := by
  unfold giveBack
  rw [hx]
  refine .bind ((Block.guardLink_reads checks len i).ensures _) fun _ =>
    .bind ((Block.isTaken_reads ⟨i⟩).ensures _) fun _ => .past fun _ =>
    .bind ((Block.left_reads _).ensures _) fun left => .bind ((Block.right_reads _).ensures _)
    fun right => .bind ((Block.guardLink_reads _ _ _).ensures _) fun _ =>
    .bind ((Block.guardLink_reads _ _ _).ensures _) fun _ => ?_
  exact .bind ((Block.size_reads _).ensures _) fun _ => .bind (absorbLeft_vacates left _)
    fun merged => .bind ((absorbRight_vacant right merged.2).or_left (j = merged.1)) fun _ =>
    .bind push_vacates fun _ => countFree_vacant

theorem lt_of_indexOfPayload {base len addr : Nat} (hx : indexOfPayload base len addr = .ok i) :
    i < len := by
  unfold indexOfPayload at hx
  split at hx
  · cases hx
  dsimp only at hx
  split at hx
  · cases hx
  · rename_i hi
    cases hx
    omega

/-- A pointer whose header is vacant is reported, checked or not. -/
theorem giveBack_reports {checks : Bool} {base addr : Nat}
    (hx : indexOfPayload base h.arena.len addr = .ok i) (hv : h.Vacant i) :
    (giveBack checks base h.arena.len addr).Reports h := by
  have htaken := Block.isTaken_returns (b := ⟨i⟩) (lt_of_indexOfPayload hx)
  rw [show isTakenTag (h.unit i) = false from hv] at htaken
  have hguard : (Block.guardLink checks h.arena.len i).Returns h () h ∨
      (Block.guardLink checks h.arena.len i).Reports h := by
    cases checks with
    | false => exact .inl (.pure () h)
    | true => exact (checkLink_cases h i).imp And.right And.right
  rw [giveBack, hx]
  rcases hguard with hguard | hguard
  · exact hguard.reports (htaken.reports (.bind (.fail rfl h)))
  · exact .bind hguard

end Heap

/-! ## The pointer that was given back -/

namespace KernelMemory

open Heap

variable {m : KernelMemory} {h h' : Heap} {addr i j : Nat}

theorem returns_of_tryFree (hm : m.heap = some h)
    (hf : m.tryFree addr = (.ok (), { m with heap := some h' })) :
    addr ≤ h.arena.base ∧ h' = h ∨
      (giveBack m.checks h.arena.base h.arena.len addr).Returns h () h' := by
  unfold tryFree at hf
  split at hf
  · rename_i h₀
    have hh : m.heap = some h' := congrArg (·.2.heap) hf
    rw [hm] at hh
    exact .inl ⟨by omega, (Option.some.inj hh).symm⟩
  · rw [perform_run _ hm] at hf
    have hr : (givePayload m.checks h.arena.base h.arena.len addr).Returns h () h' :=
      Prod.ext (congrArg (·.1) hf) (Option.some.inj (congrArg (·.2.heap) hf))
    unfold givePayload at hr
    split at hr
    · rename_i hb
      exact .inl ⟨hb.le, (congrArg (·.2) hr).symm⟩
    · exact .inr hr

/-- The header of the block that was given back, and every unit that was vacant before. -/
theorem vacant_of_tryFree (hm : m.heap = some h)
    (hf : m.tryFree addr = (.ok (), { m with heap := some h' }))
    (hj : indexOfPayload h.arena.base h.arena.len addr = .ok j ∨ h.Vacant j) : h'.Vacant j := by
  rcases returns_of_tryFree hm hf with ⟨hle, rfl⟩ | hr
  · refine hj.resolve_left fun hx => ?_
    rw [indexOfPayload, if_pos (.inl hle)] at hx
    cases hx
  cases hx : indexOfPayload h.arena.base h.arena.len addr with
  | error e =>
    rw [giveBack, hx] at hr
    cases hr
  | ok i =>
    refine giveBack_vacates hx hr (hj.imp_left fun hj => ?_)
    rw [hx] at hj
    exact (Except.ok.inj hj).symm

/-- A pointer whose header is vacant is not taken back. -/
theorem tryFree_vacant (hm : m.heap = some h)
    (hx : indexOfPayload h.arena.base h.arena.len addr = .ok i) (hv : h.Vacant i) :
    ∃ e : Error, e.isCorruption = true ∧ m.tryFree addr = (.error (.error e), m) ∧
      m.free addr = (.error (.corruptOnFree addr e), m) := by
  obtain ⟨e, he, hr⟩ : (giveBack m.checks h.arena.base h.arena.len addr).Reports h :=
    giveBack_reports hx hv
  have hbase : h.arena.base < addr := by
    refine Nat.not_le.mp fun hle => ?_
    rw [indexOfPayload, if_pos (.inl hle)] at hx
    cases hx
  have htry : m.tryFree addr = (.error (.error e), m) := by
    rw [tryFree, if_neg (by omega), perform_run _ hm, givePayload, if_neg hbase.ne', hr, ← hm]
  exact ⟨e, he, htry, by rw [free, htry]⟩

end KernelMemory

namespace Session

open Heap

variable {m m' : KernelMemory} {region : Region} {record : Log.Record} {s t : Session} {h : Heap}
  {p : Plan} {addr a i : Nat} {b : UInt8} {c : Call} {calls later : List Call}

/-- A block with its payload at `addr` was given back, and nothing that is handed out lies where its
header was. -/
structure Retired (s : Session) (h : Heap) (p : Plan) (addr i : Nat) : Prop where
  follows : s.Follows h p
  index : indexOfPayload h.arena.base h.arena.len addr = .ok i
  vacant : h.Vacant i
  outside : ∀ e, p.Lent e → i < e.start ∨ e.stop ≤ i

/-- The block at `addr` is the one that is given back now, or one that was before. -/
theorem Follows.retire (hf : s.Follows h p) (ha : s.Returnable a)
    (hx : indexOfPayload h.arena.base h.arena.len addr = .ok i) (hj : addr = a ∨ h.Vacant i)
    (hout : ∀ e, p.Lent e → payloadOf h.arena.base e.start ≠ a → i < e.start ∨ e.stop ≤ i) :
    ∃ h' p', s.memory.tryFree a = (.ok (), { s.memory with heap := some h' }) ∧
      (Session.mk { s.memory with heap := some h' } (Session.revoke s.live a)).Retired h' p'
        addr i := by
  obtain ⟨h', hm, hs, hf'⟩ := hf.give ha
  refine ⟨h', _, hm, hf', ?_, ?_, fun e he => ?_⟩
  · rw [hs.base, hs.len]
    exact hx
  · exact KernelMemory.vacant_of_tryFree hf.heap hm (hj.imp_left fun (hj : addr = a) => hj ▸ hx)
  · obtain ⟨he, hne⟩ := (hf.lent_give ha).mp he
    exact hout e he hne

theorem Follows.retire_live (hf : s.Follows h p) (hl : addr ∈ s.live.map (·.addr)) :
    ∃ i, (s.step (.free addr)).1.Succeeded ∧
      ∃ h' p', (s.step (.free addr)).2.Retired h' p' addr i := by
  obtain ⟨e, he, rfl⟩ := (hf.live addr).mp hl
  have hv := hf.represents.valid
  have hout : ∀ f, p.Lent f → payloadOf h.arena.base f.start ≠ payloadOf h.arena.base e.start →
      e.start < f.start ∨ f.stop ≤ e.start := by
    intro f hfl hne
    have hpos := he.2.2
    have hef := (hv.apart hfl.1 he.1).resolve_left fun h => hne (h ▸ rfl)
    simp only [Extent.stop, minBlockUnits] at *
    omega
  obtain ⟨h', p', hm, hr⟩ := hf.retire (.inr (.inr hl)) (hv.indexOfPayload_eq he.1 he.2.2 _)
    (.inl rfl) hout
  have hm := KernelMemory.free_of_tryFree hm
  exact ⟨e.start, by rw [Session.step, hm]; rfl, h', p', by rw [Session.step, hm]; exact hr⟩

theorem Retired.write (hr : s.Retired h p addr i) (hc : s.Permitted (.write a b)) :
    ∃ h', (s.step (.write a b)).2.Retired h' p addr i := by
  obtain ⟨hf, hx, hv, hout⟩ := hr
  obtain ⟨h', hm, hf', hb, hl⟩ := hf.write hc
  refine ⟨h', hf', ?_, ?_, hout⟩
  · rw [hb, hl]
    exact hx
  -- the byte lies in a block that is handed out, and the header in none
  obtain ⟨loan, hloan, h₁, h₂⟩ := hc
  obtain ⟨e, he, ha, -⟩ := hf.exists_lent hloan
  rw [← ha] at h₁
  rw [← ha, hf.payloadBytes_eq he] at h₂
  obtain ⟨-, h₃, h₄⟩ := unit_of_payload h₁ h₂
  obtain ⟨v, hw⟩ := KernelMemory.setByte_arena hf.heap
    (KernelMemory.contains_payload hf.represents he.1 h₁ h₂) b
  obtain rfl : h' = h.setUnit ((a - h.arena.base) / 8) v :=
    Option.some.inj (congrArg (·.heap) (hm.symm.trans hw))
  have hne : (a - h.arena.base) / 8 ≠ i := by
    have hi := hout e he
    omega
  rwa [Vacant, unit_setUnit_ne v hne]

theorem Retired.step (hr : s.Retired h p addr i) (hc : s.Permitted c)
    (hn : ∀ size, c ≠ .allocate size) :
    (s.step c).1.Succeeded ∧ ∃ h' p', (s.step c).2.Retired h' p' addr i := by
  have hgive := fun a ha => hr.follows.retire (a := a) ha hr.index (.inr hr.vacant)
    fun e he _ => hr.outside e he
  cases c with
  | allocate size => exact absurd rfl (hn size)
  | free a =>
    obtain ⟨h', p', hm, hr'⟩ := hgive a hc
    have hm := KernelMemory.free_of_tryFree hm
    exact ⟨by rw [Session.step, hm]; rfl, h', p', by rw [Session.step, hm]; exact hr'⟩
  | tryFree a =>
    obtain ⟨h', p', hm, hr'⟩ := hgive a hc
    exact ⟨by rw [Session.step, hm]; rfl, h', p', by rw [Session.step, hm]; exact hr'⟩
  | write a b =>
    obtain ⟨h', hr'⟩ := hr.write hc
    exact ⟨trivial, h', p, hr'⟩

theorem Retired.run (hr : s.Retired h p addr i) (hp : s.Permits later)
    (hn : ∀ size, .allocate size ∉ later) :
    (∀ a ∈ (s.run later).1, a.Succeeded) ∧ ∃ h' p', (s.run later).2.Retired h' p' addr i := by
  induction later generalizing s h p with
  | nil => exact ⟨fun a ha => absurd ha List.not_mem_nil, h, p, hr⟩
  | cons c later ih =>
    obtain ⟨hok, h₁, p₁, hr₁⟩ := hr.step hp.1 fun size hc => hn size (hc ▸ List.mem_cons_self)
    obtain ⟨hrest, hend⟩ := ih hr₁ hp.2 fun size hc => hn size (List.mem_cons_of_mem c hc)
    exact ⟨List.forall_mem_cons.mpr ⟨hok, hrest⟩, hend⟩

/-- Once a pointer was given back, it is no pointer to the heap any more until something is handed
out again, whatever else is given back and written by then: to give it back once more is an error
that tells of damage and changes nothing. -/
theorem double_free_detected (hi : m.init region = (.ok record, m'))
    (hp : (Session.mk m' []).Permits calls) (hs : ((Session.mk m' []).run calls).2 = s)
    (hl : addr ∈ s.live.map (·.addr)) (hq : (s.step (.free addr)).2.Permits later)
    (hn : ∀ size, .allocate size ∉ later)
    (ht : ((s.step (.free addr)).2.run later).2 = t) :
    (s.step (.free addr)).1.Succeeded ∧
      (∀ a ∈ ((s.step (.free addr)).2.run later).1, a.Succeeded) ∧
      ∃ e : Error, e.isCorruption = true ∧
        t.memory.tryFree addr = (.error (.error e), t.memory) ∧
        t.memory.free addr = (.error (.corruptOnFree addr e), t.memory) := by
  obtain ⟨h₀, hf₀, -⟩ := follows_init hi
  obtain ⟨h, -, -, hf, -⟩ := hf₀.run hp
  rw [hs] at hf
  obtain ⟨i, hok, h₁, p₁, hr₁⟩ := hf.retire_live hl
  obtain ⟨hrest, h₂, p₂, hr₂⟩ := hr₁.run hq hn
  rw [ht] at hr₂
  exact ⟨hok, hrest, KernelMemory.tryFree_vacant hr₂.follows.heap hr₂.index hr₂.vacant⟩

/-- Once the second block is given back, a byte goes into the third, and the first is given back. -/
def aroundSecond : List Call := [.write 4184 0xFF, .free 4120]

/-- The header of the second block lies inside a free block by then. -/
theorem double_free_detected_small : smallSession.Permits threeBlocks ∧
    ∃ e : Error, e.isCorruption = true ∧
      ((((smallSession.run threeBlocks).2.step (.free 4152)).2.run aroundSecond).2.memory.tryFree
        4152).1 = .error (.error e) := by
  have hp : smallSession.Permits threeBlocks := by decide +kernel
  have hl : 4152 ∈ (smallSession.run threeBlocks).2.live.map (·.addr) := by decide +kernel
  have hq : ((smallSession.run threeBlocks).2.step (.free 4152)).2.Permits aroundSecond := by
    decide +kernel
  obtain ⟨-, -, e, he, ht, -⟩ :=
    double_free_detected init_small hp rfl hl hq (by simp [aroundSecond]) rfl
  exact ⟨hp, e, he, congrArg (·.1) ht⟩

end Session

end BareKernel
