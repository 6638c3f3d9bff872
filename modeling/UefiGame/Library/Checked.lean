import Mathlib.Logic.Basic

/-! # Programs that may stop early

A program of stages logs what it looks at and either hands on a value, stops
with an error, or is lost. A property of the log, of the error and of the value
is checked stage by stage: after each one, of the rest.
-/

namespace Checked

variable {ε ι α β : Type}

/-- How a program ends. -/
inductive Outcome (ε α : Type) where
  | value (a : α)
  | stopped (e : ε)
  | lost
  deriving DecidableEq, Repr

/-- The log of a program with its outcome. -/
structure Prog (ε ι α : Type) where
  log : List ι
  outcome : Outcome ε α
  deriving DecidableEq, Repr

/-- The rest of a program runs only after a value, and adds to the log. -/
def Prog.bind (p : Prog ε ι α) (f : α → Prog ε ι β) : Prog ε ι β :=
  match p.outcome with
  | .value a => ⟨p.log ++ (f a).log, (f a).outcome⟩
  | .stopped e => ⟨p.log, .stopped e⟩
  | .lost => ⟨p.log, .lost⟩

instance : Monad (Prog ε ι) where
  pure a := ⟨[], .value a⟩
  bind := Prog.bind

def look (i : ι) : Prog ε ι Unit := ⟨[i], .value ()⟩

def stop (e : ε) : Prog ε ι α := ⟨[], .stopped e⟩

def lose : Prog ε ι α := ⟨[], .lost⟩

/-- The log entries satisfy `G`, a value `P`, an error `E`, and the program is not lost. -/
def Safe (G : ι → Prop) (E : ε → Prop) (P : α → Prop) (p : Prog ε ι α) : Prop :=
  (∀ i ∈ p.log, G i) ∧
    match p.outcome with
    | .value a => P a
    | .stopped e => E e
    | .lost => False

theorem outcome_bind_eq_value {p : Prog ε ι α} {f : α → Prog ε ι β} {b : β} :
    (p >>= f).outcome = .value b ↔ ∃ a, p.outcome = .value a ∧ (f a).outcome = .value b := by
  change (p.bind f).outcome = .value b ↔ _
  rcases p with ⟨log, a | e | _⟩ <;> simp [Prog.bind]

theorem outcome_pure {a : α} : (pure a : Prog ε ι α).outcome = .value a := rfl

variable {G : ι → Prop} {E : ε → Prop}

/-- The rule of sequence. -/
@[simp] theorem safe_bind {P : β → Prop} {p : Prog ε ι α} {f : α → Prog ε ι β} :
    Safe G E P (p >>= f) ↔ Safe G E (fun a => Safe G E P (f a)) p := by
  change Safe G E P (p.bind f) ↔ _
  rcases p with ⟨log, a | e | _⟩
  · simp only [Safe, Prog.bind, List.forall_mem_append, and_assoc]
  · rfl
  · rfl

@[simp] theorem safe_pure {P : α → Prop} {a : α} : Safe G E P (pure a) ↔ P a := by
  change Safe G E P ⟨[], .value a⟩ ↔ _
  simp [Safe]

@[simp] theorem safe_look {P : Unit → Prop} {i : ι} : Safe G E P (look i) ↔ G i ∧ P () := by
  simp [Safe, look]

@[simp] theorem safe_stop {P : α → Prop} {e : ε} : Safe G E P (stop e) ↔ E e := by
  simp [Safe, stop]

@[simp] theorem safe_lose {P : α → Prop} : Safe G E P (lose : Prog ε ι α) ↔ False := by
  simp [Safe, lose]

end Checked
