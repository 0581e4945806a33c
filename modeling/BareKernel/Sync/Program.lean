/-! Code that runs on one core among others. A program names one atomic operation on what the
cores share and goes on with its reply. An operation without a reply yet, such as taking a lock
that somebody holds, is tried again, and other cores may run in between. -/

namespace BareKernel.Sync

/-- What programs do to a shared state, one atomic operation at a time. -/
structure Machine (σ : Type) where
  Op : Type
  Reply : Op → Type
  /-- One try: without a reply the operation is still to be done. -/
  perform : (o : Op) → σ → Option (Reply o) × σ
  /-- After this many tries without a reply only another core can help. -/
  patience : σ → Nat := fun _ => 0

variable {σ : Type}

/-- Try until there is a reply, at most `n` times more than once. -/
def Machine.settle (M : Machine σ) (o : M.Op) : Nat → σ → Option (M.Reply o) × σ
  | 0, s => M.perform o s
  | n + 1, s =>
    match M.perform o s with
    | (some r, s) => (some r, s)
    | (none, s) => M.settle o n s

inductive Program (M : Machine σ) (ε α : Type) where
  | done (a : α)
  /-- The core cannot go on. -/
  | stop (e : ε)
  | op (o : M.Op) (next : M.Reply o → Program M ε α)

namespace Program

variable {M : Machine σ} {ε α β : Type}

def bind : Program M ε α → (α → Program M ε β) → Program M ε β
  | done a, f => f a
  | stop e, _ => stop e
  | op o k, f => op o fun r => (k r).bind f

instance : Monad (Program M ε) where
  pure := done
  bind := bind

def call (o : M.Op) : Program M ε (M.Reply o) := op o done

def repeatTimes (p : Program M ε Unit) : Nat → Program M ε Unit
  | 0 => pure ()
  | n + 1 => do
    p
    repeatTimes p n

/-- One try of the next operation; a program that is over stays as it is. -/
def step : Program M ε α → σ → Program M ε α × σ
  | done a, s => (done a, s)
  | stop e, s => (stop e, s)
  | op o k, s =>
    match M.perform o s with
    | (some r, s) => (k r, s)
    | (none, s) => (op o k, s)

/-- Run alone: to the end, or up to an operation that only another core can help. -/
def advance : Program M ε α → σ → Program M ε α × σ
  | done a, s => (done a, s)
  | stop e, s => (stop e, s)
  | op o k, s =>
    match M.settle o (M.patience s) s with
    | (some r, s) => (k r).advance s
    | (none, s) => (op o k, s)

/-- Nothing while the program is still to go on. -/
def result? : Program M ε α → Option (Except ε α)
  | done a => some (.ok a)
  | stop e => some (.error e)
  | op _ _ => none

theorem pure_bind (a : α) (f : α → Program M ε β) : (pure a : Program M ε α) >>= f = f a := rfl

theorem bind_assoc {γ : Type} (p : Program M ε α) (f : α → Program M ε β)
    (g : β → Program M ε γ) : p >>= f >>= g = p >>= fun a => f a >>= g := by
  change (p.bind f).bind g = p.bind fun a => (f a).bind g
  induction p with
  | done a => rfl
  | stop e => rfl
  | op o k ih => simp only [bind, ih]

end Program

/-- Cores at work on one shared state. -/
structure Crew (M : Machine σ) (ε α : Type) where
  shared : σ
  programs : List (Program M ε α)

namespace Crew

variable {M : Machine σ} {ε α : Type}

/-- One try by core `i`. -/
def step (c : Crew M ε α) (i : Nat) : Crew M ε α :=
  match c.programs[i]? with
  | none => c
  | some p =>
    let (p, s) := p.step c.shared
    ⟨s, c.programs.set i p⟩

/-- What any interleaving of the cores can lead to. -/
inductive Reach (c : Crew M ε α) : Crew M ε α → Prop
  | refl : Reach c c
  | step {d : Crew M ε α} (i : Nat) : Reach c d → Reach c (d.step i)

def advanceAll : List (Program M ε α) → σ → List (Program M ε α) × σ
  | [], s => ([], s)
  | p :: rest, s =>
    let (p, s) := p.advance s
    let (rest, s) := advanceAll rest s
    (p :: rest, s)

/-- Every core in turn, each as far as it gets alone. -/
def sweep (c : Crew M ε α) : Crew M ε α :=
  match c with
  | ⟨s, programs⟩ =>
    let (programs, s) := advanceAll programs s
    ⟨s, programs⟩

def run : Nat → Crew M ε α → Crew M ε α
  | 0, c => c
  | n + 1, c => run n c.sweep

end Crew

end BareKernel.Sync
