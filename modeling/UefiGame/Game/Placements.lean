import UefiGame.Game.Doors

/-! # Every placement comes from one choice

On a map with twelve escape cells the remainders that the passes of
`PlaceBootEntries` take of the results of `rand` are a code for the placements
of the entries: every way to give the entries cells of their own comes from
exactly one sequence of remainders.
-/

namespace UefiGame

/-- Residues that passes for `n` entries can draw: pass `i` takes a remainder by `12 - i`. -/
abbrev Residues (n : ℕ) : Type := (i : Fin n) → Fin (12 - i)

/-- The passes draw the residues `r`. -/
def DrawsResidues {n : ℕ} (env : PlaceEnv) (r : Residues n) : Prop :=
  ∀ i : Fin n, (randIndex env i).toNat = r i

/-- An escape cell of its own for each of `n` entries. -/
abbrev Placement (l : Level) (n : ℕ) : Type := Fin n ↪ {c // c ∈ l.escapes}

/-- `PlaceBootEntries` assigns the cells `f` to the entries: pass `i` turns the cell of entry `i`
into a door and no other cell, and at the end that cell holds the number of entry `i`. -/
structure Places {n : ℕ} (env : PlaceEnv) (l : Level) (es : List BootEntry) (f : Placement l n) :
    Prop where
  turned : ∀ (i : Fin n) (c : ℕ × ℕ), c.1 < l.map.width.toNat → c.2 < l.map.height.toNat →
    (TurnedFor env l es i c ↔ (f i).1 = c)
  finished : ∃ s, placeBootEntries env l es = some s ∧ ∀ i : Fin n,
    (s.map.cell (f i).1.1 (f i).1.2).toNat = l.texturesCount.toNat + i

section Placements

variable {env : PlaceEnv} {l : Level} {es : List BootEntry} {n : ℕ}

theorem drawsResidues_ranks (env : PlaceEnv) (r : Residues n) :
    DrawsResidues { env with rand := fun i => BitVec.ofNat 32 (Draw.ranks r i) } r := by
  intro i
  have hr := (r i).isLt
  have hrank : Draw.ranks r i = r i := dif_pos i.isLt
  have hint : (BitVec.ofNat 32 (r i).1).toInt = (r i).1 := toInt_ofNat (by omega)
  have hext : (uintnOfInt32 (BitVec.ofNat 32 (Draw.ranks r i))).toNat = r i := by
    rw [hrank, toNat_uintnOfInt32 (by omega), hint, Int.toNat_natCast]
  rw [randIndex, BitVec.toNat_umod, toNat_escapes_sub (by omega), hext]
  exact Nat.mod_eq_of_lt hr

theorem Level.door_of_drawsResidues {r : Residues n} (hr : DrawsResidues env r) (i : Fin n) :
    l.door env i = Draw.drawn l.escapes (Draw.ranks r) i := by
  apply Draw.drawn_congr
  intro j hj
  have hjn : j < n := hj.trans_lt i.isLt
  rw [hr ⟨j, hjn⟩, Draw.ranks, dif_pos hjn]

theorem places_of_door {f : Placement l n} (hl : 12 ≤ l.escapes.length) (hn : n ≤ 12)
    (hes : es.length = n) (hsized : l.IconsSized env es)
    (hf : ∀ i : Fin n, l.door env i = some (f i).1) : Places env l es f := by
  subst hes
  obtain ⟨s, hs, hp⟩ := exists_placed hn hsized
  have hfits := l.fits
  constructor
  · intro i c hx _
    rw [turnedFor_iff hn hsized i.isLt hx, hf i, Option.some_inj]
  · refine ⟨s, hs, ?_⟩
    intro i
    have hbefore := Level.doorsBefore_eq env hl (i.isLt.le.trans hn)
    rw [hp.opened i _ i.isLt (hf i), hbefore, l.toNat_texturesCount]
    exact Nat.mod_eq_of_lt (by omega)

end Placements

/-- With twelve escape cells, the residues are sent to the placements one to one and onto, whatever
the entries are whose icons have sizes. -/
theorem placements_bijective (l : Level) (n : ℕ) (hl : l.escapes.length = 12) (hn : n ≤ 12) :
    ∃ place : Residues n → Placement l n, Function.Bijective place ∧
      ∀ (r : Residues n) (env : PlaceEnv),
        (∃ rand, DrawsResidues { env with rand := rand } r) ∧
        (DrawsResidues env r → ∀ es : List BootEntry, es.length = n → l.IconsSized env es →
          Places env l es (place r)) := by
  obtain ⟨place, hbij, hplace⟩ := Draw.exists_bijective_drawn l.nodup_escapes hl n
  refine ⟨place, hbij, ?_⟩
  intro r env
  constructor
  · exact ⟨_, drawsResidues_ranks env r⟩
  · intro hr es hes hsized
    apply places_of_door hl.ge hn hes hsized
    intro i
    rw [Level.door_of_drawsResidues hr i, hplace r i]

/-- Eleven textures, and an escape cell in twelve of the rows. -/
def twelveEscapes : Level :=
  { manyEscapes with
    map := narrowMap (List.replicate 12 [10, 0] ++ List.replicate 6 [0, 0]) (by decide)
      (by decide) }

theorem placements_bijective_twelveEscapes :
    ∃ place : Residues 2 → Placement twelveEscapes 2, Function.Bijective place ∧
      ∀ r : Residues 2, ∃ rand, DrawsResidues (sampleEnv rand) r ∧
        Places (sampleEnv rand) twelveEscapes [sampleEntry, sampleEntry] (place r) := by
  obtain ⟨place, hbij, hplace⟩ :=
    placements_bijective twelveEscapes 2 (by decide +kernel) (by decide)
  refine ⟨place, hbij, ?_⟩
  intro r
  obtain ⟨rand, hrand⟩ := (hplace r (sampleEnv fun _ => 0)).1
  exact ⟨rand, hrand, (hplace r (sampleEnv rand)).2 hrand [sampleEntry, sampleEntry] rfl
    (iconsSized_sampleEnv rand twelveEscapes 2)⟩

end UefiGame
