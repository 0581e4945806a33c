import BareKernel.Proofs.Heap.Footprint
import BareKernel.Proofs.Heap.Serial

/-! The calls of a client, access by access. A call that needs the heap takes the lock, makes its
accesses one at a time and releases the lock. Alone they come to what the whole call comes to, and
they touch no byte that anybody else holds. -/

namespace BareKernel.Heap.Serial

open Sync
open Heap.Action (Within)

variable {α β : Type} {s : Shared.Setting} {m : KernelMemory} {cs : List Client} {c d : Client}
  {i : Nat} {o : Op} {g h : Heap} {p : Plan} {addr : Nat} {loan : Loan}

/-- What a client's operation is to the cores. -/
def command (s : Shared.Setting) : (o : Op) → Shared.Code (Reply o)
  | .allocate size => Shared.allocate s size
  | .free addr => Shared.free s addr
  | .readByte addr => Shared.readByte addr
  | .writeByte addr b => Shared.writeByte addr b

/-- A client's program as a core runs it among others. -/
def expand (s : Shared.Setting) : Code α → Shared.Code α
  | .done a => .done a
  | .stop e => .stop e
  | .op o k => command s o >>= fun r => expand s (k r)

/-- What a call does while it holds the lock; nothing for operations that do without it. -/
def critical? (s : Shared.Setting) : (o : Op) → Option (Action (Reply o))
  | .allocate size =>
    if size = 0 then none else (unitsFor size).map (takePayload s.checks s.base s.len)
  | .free addr => if addr = 0 then none else some (givePayload s.checks s.base s.len addr)
  | .readByte _ => none
  | .writeByte _ _ => none

/-- What is left of a call that holds the lock: accesses, the release, and what comes after it. -/
def rest (x : Action β) (f : Except Failure β → Shared.Code α) : Shared.Code α :=
  Shared.attempt x >>= fun r => Shared.release >>= fun _ => f r

/-! ## Kinds of operations -/

/-- The operation is over before the heap is looked at. -/
structure Silent (s : Shared.Setting) (o : Op) (r : Reply o) : Prop where
  command : command s o = pure r
  critical : critical? s o = none
  perform : ∀ m, perform o m = (some r, m)
  loans : ∀ c : Client, ∀ loan ∈ (c.next o r).loans, loan ∈ c.loans

theorem silent_allocate {size : Nat} (hsize : size = 0 ∨ unitsFor size = none) :
    Silent s (.allocate size) none where
  command := by
    change Shared.allocate s size = _
    rcases hsize with rfl | hu
    · rfl
    · by_cases h₀ : size = 0 <;> simp only [Shared.allocate, h₀, hu, if_true, if_false]
  critical := by
    rcases hsize with rfl | hu
    · rfl
    · by_cases h₀ : size = 0 <;> simp [critical?, h₀, hu]
  perform m := by
    have hm : m.allocate size = (.ok none, m) := by
      rcases hsize with rfl | hu
      · simp [KernelMemory.allocate]
      · by_cases h₀ : size = 0 <;> simp [KernelMemory.allocate, h₀, hu]
    simp only [Serial.perform, hm, Except.toOption]
  loans _ _ hl := hl

theorem silent_free : Silent s (.free 0) () where
  command := rfl
  critical := rfl
  perform _ := rfl
  loans _ _ hl := (List.mem_filter.mp hl).1

theorem silent_or (s : Shared.Setting) (o : Op) : (∃ r, Silent s o r) ∨
    (∃ x, critical? s o = some x) ∨ (∃ addr, o = .readByte addr) ∨
      ∃ addr b, o = .writeByte addr b := by
  cases o with
  | allocate size =>
    by_cases h₀ : size = 0
    · exact .inl ⟨_, silent_allocate (.inl h₀)⟩
    cases hu : unitsFor size with
    | none => exact .inl ⟨_, silent_allocate (.inr hu)⟩
    | some units => exact .inr (.inl ⟨_, by rw [critical?, if_neg h₀, hu]; rfl⟩)
  | free addr =>
    by_cases h₀ : addr = 0
    · exact .inl (h₀ ▸ ⟨_, silent_free⟩)
    · exact .inr (.inl ⟨_, if_neg h₀⟩)
  | readByte addr => exact .inr (.inr (.inl ⟨addr, rfl⟩))
  | writeByte addr b => exact .inr (.inr (.inr ⟨addr, b, rfl⟩))

/-! ## Critical sections -/

/-- A call takes the lock, and goes on with its answer once it has released it. -/
theorem command_eq {x : Action (Reply o)} (hx : critical? s o = some x) :
    ∃ f, command s o = Shared.take >>= (fun _ => rest x f) ∧ ∀ r, f (.ok r) = pure r := by
  cases o with
  | allocate size =>
    simp only [critical?, Option.ite_none_left_eq_some, Option.map_eq_some_iff] at hx
    obtain ⟨h₀, units, hu, rfl⟩ := hx
    change ∃ f, Shared.allocate s size = _ ∧ _
    simp only [Shared.allocate, h₀, hu, if_false, Shared.locked, Program.bind_assoc,
      Program.pure_bind]
    exact ⟨_, rfl, fun r => rfl⟩
  | free addr =>
    simp only [critical?, Option.ite_none_left_eq_some, Option.some.injEq] at hx
    obtain ⟨h₀, rfl⟩ := hx
    change ∃ f, Shared.free s addr = _ ∧ _
    simp only [Shared.free, h₀, if_false, Shared.locked, Program.bind_assoc, Program.pure_bind]
    exact ⟨_, rfl, fun r => rfl⟩
  | readByte addr => cases hx
  | writeByte addr b => cases hx

theorem expand_eq {x : Action (Reply o)} (hx : critical? s o = some x) (k : Reply o → Code α) :
    ∃ f, expand s (.op (M := machine) o k) = Shared.take >>= (fun _ => rest x f) ∧
      ∀ r, f (.ok r) = expand s (k r) := by
  obtain ⟨f, hf, hok⟩ := command_eq hx
  refine ⟨fun r => f r >>= fun r => expand s (k r), ?_, fun r => ?_⟩
  · change command s o >>= _ = _
    simp only [hf, rest, Program.bind_assoc]
  · change f (.ok r) >>= _ = _
    rw [hok]
    rfl

/-- A call is what its critical section comes to. -/
theorem perform_critical {x : Action (Reply o)} (hm : m.heap = some g)
    (hs : s = ⟨m.checks, g.arena.base, g.arena.len⟩) (hx : critical? s o = some x) :
    perform o m = ((x.run g).1.toOption, { m with heap := some (x.run g).2 }) := by
  obtain ⟨ram, checks, heap⟩ := m
  obtain rfl : heap = some g := hm
  cases o with
  | allocate size =>
    simp only [critical?, Option.ite_none_left_eq_some, Option.map_eq_some_iff] at hx
    obtain ⟨h₀, units, hu, rfl⟩ := hx
    subst hs
    simp only [perform, KernelMemory.allocate, KernelMemory.isInitialised, h₀, hu,
      KernelMemory.perform]
    rcases (takePayload checks g.arena.base g.arena.len units).run g with ⟨(_ | _) | _, _⟩ <;> rfl
  | free addr =>
    simp only [critical?, Option.ite_none_left_eq_some, Option.some.injEq] at hx
    obtain ⟨h₀, rfl⟩ := hx
    subst hs
    simp only [perform, KernelMemory.free, KernelMemory.tryFree, h₀, if_false,
      KernelMemory.perform]
    rcases (givePayload checks g.arena.base g.arena.len addr).run g with ⟨(_ | _) | _, _⟩ <;> rfl
  | readByte addr => cases hx
  | writeByte addr b => cases hx

/-- No byte of these loans is in a unit of `S`. -/
def Clear (s : Shared.Setting) (S : Nat → Prop) (live : List Loan) : Prop :=
  ∀ loan ∈ live, ∀ k < loan.bytes, ¬S ((loan.addr + k - s.base) / 8)

theorem clear_touches {live : List Loan} (hf : (Session.mk m (c.loans ++ live)).Follows g p)
    (own : List Extent)
    (hown : ∀ e ∈ own, ∀ loan ∈ live, payloadOf g.arena.base e.start ≠ loan.addr) :
    Clear ⟨m.checks, g.arena.base, g.arena.len⟩ (p.Touches own) live := by
  intro loan hl k hk
  obtain ⟨e, he, ha, hb⟩ := hf.exists_lent (List.mem_append_right c.loans hl)
  have hne : e ∉ own := fun h => hown e h loan hl ha
  rw [← ha]
  obtain ⟨-, h₁, h₂⟩ := unit_of_payload (e := e)
    (Nat.le_add_right (payloadOf g.arena.base e.start) k) (by omega)
  exact hf.represents.valid.not_touches he.1 he.2.1 hne h₁ h₂

/-- What a client may do touches no byte of anybody else. -/
theorem exists_within {live : List Loan} {x : Action (Reply o)}
    (hf : (Session.mk m (c.loans ++ live)).Follows g p)
    (hs : s = ⟨m.checks, g.arena.base, g.arena.len⟩) (hp : c.Permits s.base o)
    (hx : critical? s o = some x) : ∃ S, x.Within S g ∧ Clear s S live := by
  subst hs
  have hnone := clear_touches hf [] (by simp)
  cases o with
  | allocate size =>
    simp only [critical?, Option.ite_none_left_eq_some, Option.map_eq_some_iff] at hx
    obtain ⟨-, units, hu, rfl⟩ := hx
    have hin := hf.represents.takeFit_within (minBlockUnits_le_of_unitsFor hu) m.checks
    exact ⟨_, hin.bind fun _ _ _ => trivial, hnone⟩
  | free addr =>
    simp only [critical?, Option.ite_none_left_eq_some, Option.some.injEq] at hx
    obtain ⟨h₀, rfl⟩ := hx
    by_cases hb : addr = g.arena.base
    · refine ⟨_, ?_, hnone⟩
      rw [givePayload, if_pos hb]
      exact .pure () g
    · have hm : addr ∈ (c.loans ++ live).map (·.addr) := by
        rw [List.map_append]
        exact List.mem_append_left _ ((hp.resolve_left h₀).resolve_left hb)
      obtain ⟨e, he, rfl⟩ := (hf.live addr).mp hm
      refine ⟨p.Touches [e], ?_, clear_touches hf [e] fun f hfe loan hl => ?_⟩
      · rw [givePayload, if_neg hb]
        exact hf.represents.giveBack_within he.1 he.2.2 he.2.1 m.checks
      · obtain rfl := List.mem_singleton.mp hfe
        have hothers := List.filter_eq_self.mp (Sound.revoke_others hf hp) loan hl
        exact Ne.symm (of_decide_eq_true hothers)
  | readByte addr => cases hx
  | writeByte addr b => cases hx

end BareKernel.Heap.Serial
