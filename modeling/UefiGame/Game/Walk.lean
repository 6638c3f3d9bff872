import UefiGame.Game.Loop

/-! # Walking to a door

What the game is for: the player walks over the free cells of a floor until he
enters a door, which decides the entry to boot, or gives up. The walk knows
only the floor, the position and the keys; it has no variable that outlives a
step except the position.
-/

namespace UefiGame

/-- A floor: `0` is free, `doorStart` and above are doors, everything else is solid. -/
structure Floor where
  width : ℕ
  height : ℕ
  doorStart : ℕ
  value : ℕ × ℕ → ℕ

inductive Outcome where
  | escape
  | boot (k : ℕ)
  deriving DecidableEq, Repr

/-- The player's cell, and how the walk has ended. -/
structure Walk where
  pos : ℕ × ℕ
  outcome : Option Outcome

def Walk.ended (w : Walk) : Bool := w.outcome.isSome

namespace Floor

/-- The cell next to `p` in the direction of a key, if the key has one and the floor goes on. -/
def neighbour (f : Floor) (p : ℕ × ℕ) : ScanCode → Option (ℕ × ℕ)
  | .up => if p.2 = 0 then none else some (p.1, p.2 - 1)
  | .down => if p.2 + 1 < f.height then some (p.1, p.2 + 1) else none
  | .left => if p.1 = 0 then none else some (p.1 - 1, p.2)
  | .right => if p.1 + 1 < f.width then some (p.1 + 1, p.2) else none
  | .esc => none
  | .other _ => none

/-- The key leads from `p` through a door. -/
def EntersDoor (f : Floor) (p : ℕ × ℕ) (key : ScanCode) : Prop :=
  ∃ q, f.neighbour p key = some q ∧ f.doorStart ≤ f.value q

/-- Where the key leads from `p`. -/
def next (f : Floor) (p : ℕ × ℕ) (key : ScanCode) : ℕ × ℕ :=
  match f.neighbour p key with
  | some q => if f.value q = 0 ∨ f.doorStart ≤ f.value q then q else p
  | none => p

/-- ESC is pressed before a door has been entered. -/
def EscapeFirst (f : Floor) : ℕ × ℕ → List ScanCode → Prop
  | _, [] => False
  | p, key :: keys => key = .esc ∨ ¬ f.EntersDoor p key ∧ f.EscapeFirst (f.next p key) keys

/-- One key of the walk. -/
def step (f : Floor) (w : Walk) (key : ScanCode) : Walk where
  pos := f.next w.pos key
  outcome :=
    if key = .esc then some .escape
    else
      match f.neighbour w.pos key with
      | some q => if f.doorStart ≤ f.value q then some (.boot (f.value q - f.doorStart)) else none
      | none => none

/-- The walk over the given keys, as far as it goes. -/
def run (f : Floor) (w : Walk) (keys : List ScanCode) : Walk :=
  Run.run f.step Walk.ended w keys

/-- The keys the walk reads. -/
def keysRead (f : Floor) (w : Walk) (keys : List ScanCode) : List ScanCode :=
  Run.consumed f.step Walk.ended w keys

section Walk

variable {f : Floor} {w : Walk} {p q : ℕ × ℕ} {key : ScanCode} {n : ℕ}

theorem neighbour_inside (hp : p.1 < f.width ∧ p.2 < f.height) (h : f.neighbour p key = some q) :
    q.1 < f.width ∧ q.2 < f.height := by
  cases key <;> simp only [neighbour, Option.ite_none_left_eq_some, Option.ite_none_right_eq_some,
    Option.some.injEq, reduceCtorEq] at h <;> obtain ⟨hg, rfl⟩ := h
  case up => exact ⟨hp.1, by change p.2 - 1 < f.height; omega⟩
  case down => exact ⟨hp.1, hg⟩
  case left => exact ⟨by change p.1 - 1 < f.width; omega, hp.2⟩
  case right => exact ⟨hg, hp.2⟩

theorem ne_esc_of_neighbour (h : f.neighbour p key = some q) : key ≠ .esc := by
  rintro rfl
  cases h

theorem step_of_none (h : f.neighbour w.pos key = none) :
    f.step w key = ⟨w.pos, if key = .esc then some .escape else none⟩ := by
  rw [step, next, h]

theorem step_of_door (h : f.neighbour w.pos key = some q) (hd : f.doorStart ≤ f.value q) :
    f.step w key = ⟨q, some (.boot (f.value q - f.doorStart))⟩ := by
  simp [step, next, h, hd, ne_esc_of_neighbour h]

theorem step_of_free (h : f.neighbour w.pos key = some q) (hd : ¬ f.doorStart ≤ f.value q)
    (h0 : f.value q = 0) : f.step w key = ⟨q, none⟩ := by
  rw [step, next, h, if_neg (ne_esc_of_neighbour h)]
  simp only [if_pos (Or.inl h0), if_neg hd]

theorem step_of_solid (h : f.neighbour w.pos key = some q) (hd : ¬ f.doorStart ≤ f.value q)
    (h0 : f.value q ≠ 0) : f.step w key = ⟨w.pos, none⟩ := by
  simp [step, next, h, hd, h0, ne_esc_of_neighbour h]

/-- What the walk has established: the player stands on a free cell, or on the door he boots. -/
structure Sound (f : Floor) (n : ℕ) (w : Walk) : Prop where
  inside : w.pos.1 < f.width ∧ w.pos.2 < f.height
  free : (∀ k, w.outcome ≠ some (.boot k)) → f.value w.pos = 0
  door : ∀ k, w.outcome = some (.boot k) → f.value w.pos = f.doorStart + k ∧ k < n

theorem step_sound (hv : ∀ q : ℕ × ℕ, q.1 < f.width → q.2 < f.height → f.value q < f.doorStart + n)
    (h : w.outcome = none) (hs : Sound f n w) : Sound f n (f.step w key) := by
  have hfree : f.value w.pos = 0 := hs.free (by simp [h])
  cases hq : f.neighbour w.pos key with
  | none =>
    rw [step_of_none hq]
    constructor
    case inside => exact hs.inside
    case free => exact fun _ => hfree
    case door =>
      intro k hk
      split_ifs at hk
      cases hk
  | some q =>
    have hin := neighbour_inside hs.inside hq
    by_cases hd : f.doorStart ≤ f.value q
    · have hlt := hv q hin.1 hin.2
      rw [step_of_door hq hd]
      constructor
      case inside => exact hin
      case free => exact fun hno => absurd rfl (hno _)
      case door =>
        rintro k ⟨⟩
        exact ⟨(Nat.add_sub_of_le hd).symm, by omega⟩
    · by_cases h0 : f.value q = 0
      · rw [step_of_free hq hd h0]
        exact ⟨hin, fun _ => h0, fun k hk => by cases hk⟩
      · rw [step_of_solid hq hd h0]
        exact ⟨hs.inside, fun _ => hfree, fun k hk => by cases hk⟩

theorem run_sound (hv : ∀ q : ℕ × ℕ, q.1 < f.width → q.2 < f.height → f.value q < f.doorStart + n)
    (hs : Sound f n w) (keys : List ScanCode) : Sound f n (f.run w keys) :=
  Run.invariant (fun w _ h => step_sound hv (by simpa [Walk.ended] using h)) hs keys

theorem step_outcome_escape_iff : (f.step w key).outcome = some .escape ↔ key = .esc := by
  constructor
  · intro h
    by_contra hne
    cases hq : f.neighbour w.pos key with
    | none => simp [step, hne, hq] at h
    | some q => by_cases hd : f.doorStart ≤ f.value q <;> simp [step, hne, hq, hd] at h
  · rintro rfl
    simp [step]

theorem entersDoor_iff : f.EntersDoor w.pos key ↔ ∃ k, (f.step w key).outcome = some (.boot k) := by
  constructor
  · rintro ⟨q, hq, hd⟩
    rw [step_of_door hq hd]
    exact ⟨_, rfl⟩
  · rintro ⟨k, hk⟩
    cases hq : f.neighbour w.pos key with
    | none =>
      rw [step_of_none hq] at hk
      split_ifs at hk
      cases hk
    | some q =>
      by_cases hd : f.doorStart ≤ f.value q
      · exact ⟨q, hq, hd⟩
      · simp [step, ne_esc_of_neighbour hq, hq, hd] at hk

theorem escapeFirst_keysRead_iff (h : w.outcome = none) (keys : List ScanCode) :
    f.EscapeFirst w.pos (f.keysRead w keys) ↔ (f.run w keys).outcome = some .escape := by
  induction keys generalizing w with
  | nil => simp [keysRead, Run.consumed, EscapeFirst, run, h]
  | cons key keys ih =>
    have hgoing : w.ended = false := by simp [Walk.ended, h]
    have hpos : f.next w.pos key = (f.step w key).pos := rfl
    rw [keysRead, run, Run.consumed_cons_of_not_halted hgoing,
      Run.run_cons_of_not_halted hgoing, EscapeFirst, ← step_outcome_escape_iff (f := f) (w := w),
      entersDoor_iff, hpos, ← keysRead, ← run]
    cases hout : (f.step w key).outcome with
    | none =>
      rw [ih hout]
      simp
    | some o =>
      have hended : (f.step w key).ended = true := by simp [Walk.ended, hout]
      rw [run, Run.run_of_halted hended, hout]
      cases o <;> simp

end Walk

end Floor

end UefiGame
