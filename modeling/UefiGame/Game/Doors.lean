import UefiGame.Game.Loop
import UefiGame.Game.Place
import UefiGame.Graphics.BmpRoundTrip

/-! # Doors and boot entries

The passes of `PlaceBootEntries` draw the escape cells by rank: the door opened
in pass `i` is the cell drawn in turn `i`, and its number counts the doors
opened before it. With at least twelve escape cells every pass opens a door, and
door and entry agree; with fewer they agree unless a pass that finds no cell
comes before one that does.
-/

namespace UefiGame

namespace Level

variable (env : PlaceEnv) (l : Level)

/-- The escape cells of the map as it is given. -/
def escapes : List (ℕ × ℕ) := escapeCells l.texturesCount l.map

/-- The cell that pass `i` turns into a door. -/
def door (i : ℕ) : Option (ℕ × ℕ) := Draw.drawn l.escapes (fun i => (randIndex env i).toNat) i

/-- The number of doors opened before pass `i`. -/
def doorsBefore (i : ℕ) : ℕ :=
  Nat.count (Draw.Draws l.escapes fun i => (randIndex env i).toNat) i

/-- The texture shown in cell `c` of the given map. -/
def shown (c : ℕ × ℕ) : Image := l.textures[(l.map.cell c.1 c.2).toNat]?.getD []

/-- The icons of the doors opened for the entries `es` are of a size that comes back. -/
def IconsSized (es : List BootEntry) : Prop :=
  ∀ i e c, es[i]? = some e → l.door env i = some c →
    (readBMP env.fs e.icon (env.stack i)).2.Sized

end Level

/-- What the passes for the entries `es` have made of the level `l`. -/
structure Placed (env : PlaceEnv) (l : Level) (es : List BootEntry) (s : PlaceState) : Prop where
  width_eq : s.map.width = l.map.width
  height_eq : s.map.height = l.map.height
  escapes_eq : escapeCells l.texturesCount s.map =
    Draw.remaining l.escapes (fun i => (randIndex env i).toNat) es.length
  length_eq : s.textures.length = l.textures.length + l.doorsBefore env es.length
  kept : ∀ k < l.textures.length, s.textures[k]? = l.textures[k]?
  opened : ∀ j c, j < es.length → l.door env j = some c →
    s.map.cell c.1 c.2 = BitVec.ofNat 64 (l.textures.length + l.doorsBefore env j)
  texture : ∀ j c e, es[j]? = some e → l.door env j = some c →
    s.textures[l.textures.length + l.doorsBefore env j]? =
      some (bootEntryTexture env.manager (l.shown c) (readBMP env.fs e.icon (env.stack j)).2)
  other : ∀ c : ℕ × ℕ, c.1 < l.map.width.toNat → (∀ j < es.length, l.door env j ≠ some c) →
    s.map.cell c.1 c.2 = l.map.cell c.1 c.2

section Placed

variable {env : PlaceEnv} {l : Level} {es es' : List BootEntry} {e : BootEntry} {s s' : PlaceState}
  {i j : ℕ} {c : ℕ × ℕ}

theorem Level.toNat_texturesCount (l : Level) : l.texturesCount.toNat = l.textures.length := by
  have hfits := l.fits
  exact Nat.mod_eq_of_lt (by omega)

theorem Level.nodup_escapes (l : Level) : l.escapes.Nodup := nodup_escapeCells ..

theorem Level.mem_escapes_of_door (h : l.door env i = some c) : c ∈ l.escapes :=
  Draw.mem_list_of_drawn h

theorem Level.doorsBefore_lt (h : l.door env j = some c) (hji : j < i) :
    l.doorsBefore env j < l.doorsBefore env i :=
  Nat.count_strict_mono (Draw.draws_iff.mpr ⟨c, h⟩) hji

theorem Level.doorsBefore_le (env : PlaceEnv) (l : Level) (i : ℕ) : l.doorsBefore env i ≤ i :=
  Nat.count_le ..

theorem Level.door_inj (hi : l.door env i = some c) (hj : l.door env j = some c) : i = j :=
  Draw.drawn_inj l.nodup_escapes hi hj

theorem Level.doorsBefore_succ_of_some (h : l.door env i = some c) :
    l.doorsBefore env (i + 1) = l.doorsBefore env i + 1 := by
  rw [Level.doorsBefore, Nat.count_succ, if_pos (Draw.draws_iff.mpr ⟨c, h⟩)]
  rfl

theorem Level.doorsBefore_succ_of_none (h : l.door env i = none) :
    l.doorsBefore env (i + 1) = l.doorsBefore env i := by
  have hnot : ¬ Draw.Draws l.escapes (fun i => (randIndex env i).toNat) i := by
    rw [Draw.draws_iff]
    rintro ⟨c, hc⟩
    exact absurd (h.symm.trans hc) (by simp)
  rw [Level.doorsBefore, Nat.count_succ, if_neg hnot]
  rfl

theorem placed_nil : Placed env l [] l.toPlaceState where
  width_eq := rfl
  height_eq := rfl
  escapes_eq := rfl
  length_eq := rfl
  kept := fun _ _ => rfl
  opened := fun _ _ hj => absurd hj (Nat.not_lt_zero _)
  texture := fun _ _ _ he => by simp at he
  other := fun _ _ _ => rfl

theorem Placed.texturesCount_eq (hp : Placed env l es s) (hn : es.length ≤ 12) :
    s.texturesCount.toNat = l.textures.length + l.doorsBefore env es.length := by
  have hfits := l.fits
  have hle := Level.doorsBefore_le env l es.length
  rw [PlaceState.texturesCount, hp.length_eq]
  exact Nat.mod_eq_of_lt (by omega)

theorem Placed.append_of_none (hp : Placed env l es s) (h : l.door env es.length = none) :
    Placed env l (es ++ [e]) s := by
  have hlen : (es ++ [e]).length = es.length + 1 := by simp
  have hlt : ∀ {j c}, j < (es ++ [e]).length → l.door env j = some c → j < es.length := by
    intro j c hj hd
    rw [hlen] at hj
    rcases Nat.lt_succ_iff_lt_or_eq.mp hj with hj | rfl
    · exact hj
    · rw [h] at hd; cases hd
  constructor
  case width_eq => exact hp.width_eq
  case height_eq => exact hp.height_eq
  case escapes_eq =>
    rw [hp.escapes_eq, hlen, Draw.remaining, List.eraseIdx_of_length_le]
    exact List.getElem?_eq_none_iff.mp h
  case length_eq => rw [hp.length_eq, hlen, Level.doorsBefore_succ_of_none h]
  case kept => exact hp.kept
  case opened =>
    intro j c hj hd
    exact hp.opened j c (hlt hj hd) hd
  case texture =>
    intro j c e' he hd
    have hj := hlt (List.getElem?_eq_some_iff.mp he).1 hd
    rw [List.getElem?_append_left hj] at he
    exact hp.texture j c e' he hd
  case other =>
    intro c hc hno
    apply hp.other c hc
    intro j hj
    exact hno j (by omega)

theorem Placed.cell_of_door (hp : Placed env l es s) (h : l.door env es.length = some c) :
    s.map.cell c.1 c.2 = l.map.cell c.1 c.2 := by
  apply hp.other c (mem_escapeCells.mp (Level.mem_escapes_of_door h)).1.1
  intro j hj hd
  exact absurd (Level.door_inj hd h) (Nat.ne_of_lt hj)

theorem Placed.shown_of_door (hp : Placed env l es s) (h : l.door env es.length = some c) :
    s.textures[(s.map.cell c.1 c.2).toNat]?.getD [] = l.shown c := by
  have hlt := (mem_escapeCells.mp (Level.mem_escapes_of_door h)).2.2
  rw [BitVec.lt_def, l.toNat_texturesCount] at hlt
  rw [hp.cell_of_door h, hp.kept _ hlt, Level.shown]

/-- A pass that finds a cell opens a door there, numbered by the doors opened before. -/
theorem Placed.append_of_some (hp : Placed env l es s) (hn : es.length < 12)
    (h : l.door env es.length = some c) (ho : openDoor env es.length e s c = some s') :
    Placed env l (es ++ [e]) s' := by
  have hlen : (es ++ [e]).length = es.length + 1 := by simp
  have hcount := hp.texturesCount_eq (Nat.le_of_lt hn)
  have hdraw : (escapeCells l.texturesCount s.map)[(randIndex env es.length).toNat]? = some c := by
    rw [hp.escapes_eq]; exact h
  have hmem := List.mem_of_getElem? hdraw
  have htex := textures_openDoor ho hmem
  rw [hp.shown_of_door h] at htex
  constructor
  case width_eq => rw [map_openDoor ho]; exact hp.width_eq
  case height_eq => rw [map_openDoor ho]; exact hp.height_eq
  case escapes_eq =>
    have hb : l.texturesCount ≤ s.texturesCount := by
      rw [BitVec.le_def, hcount, l.toNat_texturesCount]
      omega
    rw [escapeCells_openDoor ho hmem hb hdraw, hp.escapes_eq, hlen]
    rfl
  case length_eq =>
    rw [htex, List.length_append, hp.length_eq, hlen, Level.doorsBefore_succ_of_some h]
    rfl
  case kept =>
    intro k hk
    rw [htex, List.getElem?_append_left (by rw [hp.length_eq]; omega), hp.kept k hk]
  case opened =>
    intro j d hj hd
    rw [hlen] at hj
    rcases Nat.lt_succ_iff_lt_or_eq.mp hj with hj | rfl
    · have hne : d ≠ c := fun he => absurd (Level.door_inj hd (he ▸ h)) (Nat.ne_of_lt hj)
      have hx := (mem_escapeCells.mp (Level.mem_escapes_of_door hd)).1.1
      rw [cell_openDoor_of_ne ho hmem (hp.width_eq ▸ hx) hne]
      exact hp.opened j d hj hd
    · obtain rfl : c = d := Option.some.inj (h.symm.trans hd)
      rw [cell_openDoor_self ho hmem, PlaceState.texturesCount, hp.length_eq]
  case texture =>
    intro j d e' he hd
    have hj := (List.getElem?_eq_some_iff.mp he).1
    rw [hlen] at hj
    rcases Nat.lt_succ_iff_lt_or_eq.mp hj with hj | rfl
    · have hless := Level.doorsBefore_lt hd hj
      rw [List.getElem?_append_left hj] at he
      rw [htex, List.getElem?_append_left (by rw [hp.length_eq]; omega)]
      exact hp.texture j d e' he hd
    · obtain rfl : c = d := Option.some.inj (h.symm.trans hd)
      obtain rfl : e = e' := by simpa using he
      rw [htex, ← hp.length_eq, List.getElem?_concat_length]
  case other =>
    intro d hd hno
    have hne : d ≠ c := fun he => hno es.length (by omega) (he ▸ h)
    rw [cell_openDoor_of_ne ho hmem (hp.width_eq ▸ hd) hne]
    apply hp.other d hd
    intro j hj
    exact hno j (by omega)

theorem placeBootEntries_append (env : PlaceEnv) (l : Level) (es : List BootEntry) (e : BootEntry) :
    placeBootEntries env l (es ++ [e]) = (placeBootEntries env l es).bind fun s =>
      placeBootEntry env l.texturesCount s (e, es.length) := by
  rw [placeBootEntries, List.zipIdx_append, List.foldlM_append]
  simp [placeBootEntries]

/-- One pass more, which does not come back from the icon of a door without a size. -/
theorem Placed.placeBootEntry_eq (hp : Placed env l es s) (hn : es.length < 12) :
    placeBootEntry env l.texturesCount s (e, es.length) =
      (l.door env es.length).elim (some s) (openDoor env es.length e s) := by
  rw [UefiGame.placeBootEntry_eq hn, hp.escapes_eq]
  rfl

theorem Placed.append (hp : Placed env l es s) (hn : es.length < 12)
    (hs : placeBootEntry env l.texturesCount s (e, es.length) = some s') :
    Placed env l (es ++ [e]) s' := by
  rw [hp.placeBootEntry_eq hn] at hs
  cases h : l.door env es.length with
  | none =>
    rw [h] at hs
    obtain rfl : s = s' := Option.some.inj hs
    exact hp.append_of_none h
  | some c =>
    rw [h] at hs
    exact hp.append_of_some hn h hs

theorem Level.IconsSized.of_prefix (h : l.IconsSized env es) (hpre : es' <+: es) :
    l.IconsSized env es' := by
  obtain ⟨t, rfl⟩ := hpre
  intro i e c he hd
  have hi := (List.getElem?_eq_some_iff.mp he).1
  exact h i e c ((List.getElem?_append_left hi).trans he) hd

theorem Level.IconsSized.take (h : l.IconsSized env es) (n : ℕ) : l.IconsSized env (es.take n) :=
  h.of_prefix (List.take_prefix n es)

theorem Level.iconsSized_of_escapes_eq_nil (h : l.escapes = []) : l.IconsSized env es := by
  intro i e c _ hd
  have hmem := Level.mem_escapes_of_door hd
  rw [h] at hmem
  cases hmem

/-- Up to twelve entries are placed, if the icons of the doors have sizes. -/
theorem exists_placed (hn : es.length ≤ 12) (hsized : l.IconsSized env es) :
    ∃ s, placeBootEntries env l es = some s ∧ Placed env l es s := by
  induction es using List.reverseRecOn with
  | nil => exact ⟨l.toPlaceState, rfl, placed_nil⟩
  | append_singleton es e ih =>
    rw [List.length_append, List.length_singleton] at hn
    have hlt : es.length < 12 := hn
    obtain ⟨s, hs, hp⟩ := ih (Nat.le_of_lt hlt) (hsized.of_prefix (List.prefix_append es [e]))
    have hpass : (placeBootEntry env l.texturesCount s (e, es.length)).isSome := by
      rw [hp.placeBootEntry_eq hlt]
      cases h : l.door env es.length with
      | none => rfl
      | some c => exact isSome_openDoor.mpr (hsized es.length e c List.getElem?_concat_length h)
    obtain ⟨s', hs'⟩ := Option.isSome_iff_exists.mp hpass
    rw [placeBootEntries_append, hs]
    exact ⟨s', hs', hp.append hlt hs'⟩

/-- A call that comes back has placed at most twelve entries, the icons
of the doors all of sizes. -/
theorem placed_of_placeBootEntries (hs : placeBootEntries env l es = some s) :
    es.length ≤ 12 ∧ l.IconsSized env es ∧ Placed env l es s := by
  induction es using List.reverseRecOn generalizing s with
  | nil =>
    obtain rfl : l.toPlaceState = s := Option.some.inj hs
    exact ⟨Nat.zero_le _, nofun, placed_nil⟩
  | append_singleton es e ih =>
    rw [placeBootEntries_append, Option.bind_eq_some_iff] at hs
    obtain ⟨s₀, hs₀, hpass⟩ := hs
    obtain ⟨hle, hsized, hp⟩ := ih hs₀
    have hlt : es.length < 12 := by
      by_contra hge
      have h12 : es.length = 12 := by omega
      simp [placeBootEntry, h12, escapes] at hpass
    refine ⟨by rw [List.length_append]; exact hlt, ?_, hp.append hlt hpass⟩
    intro i e' c he hd
    rcases Nat.lt_or_ge i es.length with hi | hi
    · rw [List.getElem?_append_left hi] at he
      exact hsized i e' c he hd
    · have hi' := (List.getElem?_eq_some_iff.mp he).1
      rw [List.length_append, List.length_singleton] at hi'
      obtain rfl : i = es.length := by omega
      obtain rfl : e = e' := by simpa using he
      rw [hp.placeBootEntry_eq hlt, hd] at hpass
      exact isSome_openDoor.mp (Option.isSome_iff_exists.mpr ⟨s, hpass⟩)

theorem exists_placeBootEntries_iff :
    (∃ s, placeBootEntries env l es = some s) ↔ es.length ≤ 12 ∧ l.IconsSized env es := by
  constructor
  · rintro ⟨s, hs⟩
    obtain ⟨hn, hsized, -⟩ := placed_of_placeBootEntries hs
    exact ⟨hn, hsized⟩
  · rintro ⟨hn, hsized⟩
    obtain ⟨s, hs, -⟩ := exists_placed hn hsized
    exact ⟨s, hs⟩

/-- The textures after placing: those of the level, and one for each opened door. -/
theorem Placed.forall_mem_textures (hp : Placed env l es s) {P : Image → Prop} :
    (∀ t ∈ s.textures, P t) ↔ (∀ t ∈ l.textures, P t) ∧
      ∀ i e c, es[i]? = some e → l.door env i = some c →
        P (bootEntryTexture env.manager (l.shown c) (readBMP env.fs e.icon (env.stack i)).2) := by
  constructor
  · intro h
    constructor
    · intro t ht
      obtain ⟨k, hk, rfl⟩ := List.getElem_of_mem ht
      apply h
      have hkept := hp.kept k hk
      rw [List.getElem?_eq_getElem hk] at hkept
      exact List.mem_of_getElem? hkept
    · intro i e c he hd
      exact h _ (List.mem_of_getElem? (hp.texture i c e he hd))
  · rintro ⟨hold, hnew⟩ t ht
    obtain ⟨k, hk, rfl⟩ := List.getElem_of_mem ht
    rcases Nat.lt_or_ge k l.textures.length with hlt | hge
    · have hkept := hp.kept k hlt
      rw [List.getElem?_eq_getElem hk] at hkept
      exact hold _ (List.mem_of_getElem? hkept.symm)
    · -- the door that the texture was made for
      have hcount : k - l.textures.length < l.doorsBefore env es.length := by
        have hlen := hp.length_eq
        omega
      obtain ⟨i, hi, hdraws, hbefore⟩ := Draw.exists_count_eq hcount
      obtain ⟨c, hc⟩ := Draw.draws_iff.mp hdraws
      have htex := hp.texture i c es[i] (List.getElem?_eq_getElem hi) hc
      have hk' : l.textures.length + l.doorsBefore env i = k := by
        rw [Level.doorsBefore, hbefore]
        omega
      rw [hk', List.getElem?_eq_getElem hk] at htex
      rw [Option.some.inj htex]
      exact hnew i es[i] c (List.getElem?_eq_getElem hi) hc

theorem toNat_randIndex_lt (env : PlaceEnv) (hi : i < 12) :
    (randIndex env i).toNat < 12 - i := by
  rw [randIndex, BitVec.toNat_umod, toNat_escapes_sub hi]
  exact Nat.mod_lt _ (by omega)

theorem Level.doorsBefore_eq (env : PlaceEnv) (hl : 12 ≤ l.escapes.length) (hi : i ≤ 12) :
    l.doorsBefore env i = i := by
  have hfit : ∀ j < i, (randIndex env j).toNat < l.escapes.length - j := by
    intro j hj
    have hlt := toNat_randIndex_lt env (i := j) (by omega)
    omega
  have hcount := Draw.count_of_prefix (n := i) hfit (fun j hij hji => by omega) i le_rfl
  rwa [Nat.min_self] at hcount

theorem Level.exists_door (hl : 12 ≤ l.escapes.length) (hi : i < 12) :
    ∃ c, l.door env i = some c := by
  have hlt := toNat_randIndex_lt env hi
  have hcount := Level.doorsBefore_eq env hl (Nat.le_of_lt hi)
  rw [Level.doorsBefore] at hcount
  refine Draw.draws_iff.mp ((Draw.draws_iff_lt ..).mpr ?_)
  rw [hcount]
  omega

end Placed

/-- The cells `doors` of `l` have become the doors of the entries `es`, in order, each showing what
it showed before composed with its entry's icon, and nothing else has changed. -/
structure DoorsOf (env : PlaceEnv) (l : Level) (es : List BootEntry) (doors : List (ℕ × ℕ))
    (s : PlaceState) : Prop where
  texturesCount : s.texturesCount.toNat = l.texturesCount.toNat + es.length
  length_eq : doors.length = es.length
  nodup : doors.Nodup
  escape : ∀ c ∈ doors, c ∈ l.escapes
  value : ∀ i c, doors[i]? = some c → (s.map.cell c.1 c.2).toNat = l.texturesCount.toNat + i
  texture : ∀ i c e, doors[i]? = some c → es[i]? = some e → ∀ out,
    s.textures[l.texturesCount.toNat + i]? =
      some (bootEntryTexture env.manager (l.shown c) (readBMP env.fs e.icon out).2)
  width_eq : s.map.width = l.map.width
  height_eq : s.map.height = l.map.height
  cells : ∀ c : ℕ × ℕ, c.1 < l.map.width.toNat → c.2 < l.map.height.toNat → c ∉ doors →
    s.map.cell c.1 c.2 = l.map.cell c.1 c.2
  textures : ∀ k < l.texturesCount.toNat, s.textures[k]? = l.textures[k]?

section Doors

variable {env : PlaceEnv} {l : Level} {es : List BootEntry} {s : PlaceState}

theorem Placed.exists_doors (hp : Placed env l es s) (hl : 12 ≤ l.escapes.length)
    (hn : es.length ≤ 12)
    (hicons : ∀ e ∈ es, ∃ out, efiError (readBMP env.fs e.icon out).1 = false) :
    ∃ doors, DoorsOf env l es doors s := by
  have hbefore : ∀ i ≤ es.length, l.doorsBefore env i = i :=
    fun i hi => Level.doorsBefore_eq env hl (by omega)
  have hdoor : ∀ i < es.length, ∃ c, l.door env i = some c :=
    fun i hi => Level.exists_door hl (by omega)
  choose! door hdoor using hdoor
  have hget : ∀ i c, ((List.range es.length).map door)[i]? = some c →
      i < es.length ∧ l.door env i = some c := by
    intro i c hi
    have hlt : i < es.length := by simpa using (List.getElem?_eq_some_iff.mp hi).1
    rw [List.getElem?_map, List.getElem?_range hlt] at hi
    exact ⟨hlt, Option.some.inj hi ▸ hdoor i hlt⟩
  have hbase := l.toNat_texturesCount
  have hfits := l.fits
  refine ⟨(List.range es.length).map door, ?_⟩
  constructor
  case texturesCount => rw [hp.texturesCount_eq hn, hbefore _ le_rfl, hbase]
  case length_eq => simp
  case nodup =>
    apply List.nodup_range.map_on
    intro i hi j hj he
    rw [List.mem_range] at hi hj
    exact Level.door_inj (hdoor i hi) (he ▸ hdoor j hj)
  case escape =>
    intro c hc
    obtain ⟨i, hi⟩ := List.mem_iff_getElem?.mp hc
    exact Level.mem_escapes_of_door (hget i c hi).2
  case value =>
    intro i c hi
    obtain ⟨hlt, hd⟩ := hget i c hi
    rw [hp.opened i c hlt hd, hbefore i (Nat.le_of_lt hlt), hbase]
    exact Nat.mod_eq_of_lt (by omega)
  case texture =>
    intro i c e hi he out
    obtain ⟨hlt, hd⟩ := hget i c hi
    obtain ⟨out', hicon⟩ := hicons e (List.mem_of_getElem? he)
    have htex := hp.texture i c e he hd
    rw [hbefore i (Nat.le_of_lt hlt)] at htex
    rw [hbase, htex, readBMP_congr hicon (env.stack i), readBMP_congr hicon out]
  case width_eq => exact hp.width_eq
  case height_eq => exact hp.height_eq
  case cells =>
    intro c hx _ hc
    apply hp.other c hx
    intro j hj hd
    apply hc
    have he : door j = c := Option.some.inj ((hdoor j hj).symm.trans hd)
    exact he ▸ List.mem_map_of_mem (List.mem_range.mpr hj)
  case textures =>
    intro k hk
    exact hp.kept k (hbase ▸ hk)

theorem Level.iconsSized_iff (hl : 12 ≤ l.escapes.length) (hn : es.length ≤ 12)
    (hicons : ∀ e ∈ es, ∃ out, efiError (readBMP env.fs e.icon out).1 = false) :
    l.IconsSized env es ↔ ∀ e ∈ es, ∀ out, (readBMP env.fs e.icon out).2.Sized := by
  constructor
  · intro h e he out
    obtain ⟨i, hi⟩ := List.mem_iff_getElem?.mp he
    have hlt := (List.getElem?_eq_some_iff.mp hi).1
    obtain ⟨c, hc⟩ : ∃ c, l.door env i = some c := Level.exists_door hl (by omega)
    obtain ⟨out', hicon⟩ := hicons e he
    have hsized := h i e c hi hc
    rwa [readBMP_congr hicon (env.stack i), ← readBMP_congr hicon out] at hsized
  · intro h i e c he _
    exact h e (List.mem_of_getElem? he) (env.stack i)

end Doors

/-- The firmware of a program whose `rand` gives the numbers `rand`; every icon is one pixel. -/
def sampleEnv (rand : ℕ → INT32) : PlaceEnv where
  manager := .bootManager2D
  fs := fun _ => FileIo.ofBytes
    (encodeBmp (bmpFields 1 1 0) [] (fun _ _ => ⟨1, 2, 3, 255⟩) 1 1) [] (by decide +kernel)
  rand := rand
  stack := fun _ => ⟨0, 0, []⟩

def sampleEntry : BootEntry := ⟨none, none, none, some [], none⟩

/-- Eleven textures, and an escape cell in every row of the left column. -/
def manyEscapes : Level where
  map := narrowMap (List.replicate 18 [10, 0]) (by decide) (by decide)
  textures := List.replicate 11 [Pixel.zero]
  fits := by decide

/-- Every icon is a supported header that says `-1` by `-1` pixels. -/
def negativeIconEnv : PlaceEnv where
  manager := .bootManager2D
  fs := fun _ => FileIo.ofBytes
    (encodeBmp (bmpFields 0xffffffff 0xffffffff 0) [] samplePixels 0 0) [] (by decide +kernel)
  rand := fun _ => 3
  stack := fun _ => ⟨0, 0, []⟩

/-- The cell `c` was turned into a door on behalf of entry number `i`: pass `i` changed it. -/
def TurnedFor (env : PlaceEnv) (l : Level) (es : List BootEntry) (i : ℕ) (c : ℕ × ℕ) : Prop :=
  ∃ s s', placeBootEntries env l (es.take i) = some s ∧
    placeBootEntries env l (es.take (i + 1)) = some s' ∧ s.map.cell c.1 c.2 ≠ s'.map.cell c.1 c.2

/-- After `PlaceBootEntries` every door holds the number of the entry it was made for. -/
def DoorsAgree (env : PlaceEnv) (l : Level) (es : List BootEntry) : Prop :=
  ∀ s, placeBootEntries env l es = some s → ∀ i < es.length, ∀ c : ℕ × ℕ,
    c.1 < l.map.width.toNat → c.2 < l.map.height.toNat → TurnedFor env l es i c →
      (s.map.cell c.1 c.2).toNat = l.texturesCount.toNat + i

section Agree

variable {env : PlaceEnv} {l : Level} {es : List BootEntry} {s : PlaceState} {i : ℕ} {c : ℕ × ℕ}

theorem turnedFor_iff (hn : es.length ≤ 12) (hsized : l.IconsSized env es) (hi : i < es.length)
    (hx : c.1 < l.map.width.toNat) : TurnedFor env l es i c ↔ l.door env i = some c := by
  have hlen : (es.take i).length = i := List.length_take_of_le (Nat.le_of_lt hi)
  have hlen' : (es.take (i + 1)).length = i + 1 := List.length_take_of_le hi
  obtain ⟨s, hs, hp⟩ := exists_placed (by omega) (hsized.take i)
  obtain ⟨s', hs', hp'⟩ := exists_placed (by omega) (hsized.take (i + 1))
  have hturned : TurnedFor env l es i c ↔ s.map.cell c.1 c.2 ≠ s'.map.cell c.1 c.2 := by
    simp [TurnedFor, hs, hs']
  rw [hturned]
  constructor
  · intro hne
    by_contra hd
    apply hne
    by_cases hearly : ∃ j < i, l.door env j = some c
    · obtain ⟨j, hj, hdj⟩ := hearly
      rw [hp.opened j c (by omega) hdj, hp'.opened j c (by omega) hdj]
    · push Not at hearly
      rw [hp.other c hx (by rwa [hlen]), hp'.other c hx]
      intro j hj hdj
      rcases Nat.lt_succ_iff_lt_or_eq.mp (hlen' ▸ hj) with hj | rfl
      · exact hearly j hj hdj
      · exact hd hdj
  · intro hd he
    have hescape := (mem_escapeCells.mp (Level.mem_escapes_of_door hd)).2.2
    have hfits := l.fits
    have hle := Level.doorsBefore_le env l i
    rw [hp.other c hx fun j hj hdj => Nat.ne_of_lt (hlen ▸ hj) (Level.door_inj hdj hd),
      hp'.opened i c (by omega) hd] at he
    rw [he, BitVec.lt_def, l.toNat_texturesCount, BitVec.toNat_ofNat,
      Nat.mod_eq_of_lt (by omega)] at hescape
    omega

theorem Placed.toNat_cell_door (hp : Placed env l es s) (hn : es.length ≤ 12) (hi : i < es.length)
    (hd : l.door env i = some c) :
    (s.map.cell c.1 c.2).toNat = l.texturesCount.toNat + l.doorsBefore env i := by
  have hfits := l.fits
  have hle := Level.doorsBefore_le env l i
  rw [hp.opened i c hi hd, l.toNat_texturesCount]
  exact Nat.mod_eq_of_lt (by omega)

theorem doorsAgree_iff_count (hs : placeBootEntries env l es = some s) :
    DoorsAgree env l es ↔ ∀ i < es.length, ∀ c, l.door env i = some c →
      l.doorsBefore env i = i := by
  obtain ⟨hn, hsized, hp⟩ := placed_of_placeBootEntries hs
  constructor
  · intro h i hi c hc
    obtain ⟨⟨hx, hy⟩, -⟩ := mem_escapeCells.mp (Level.mem_escapes_of_door hc)
    have hcell := h s hs i hi c hx hy ((turnedFor_iff hn hsized hi hx).mpr hc)
    rw [hp.toNat_cell_door hn hi hc] at hcell
    exact Nat.add_left_cancel hcell
  · intro h s' hs' i hi c hx _ hc
    obtain rfl : s = s' := Option.some.inj (hs.symm.trans hs')
    have hd := (turnedFor_iff hn hsized hi hx).mp hc
    rw [hp.toNat_cell_door hn hi hd, h i hi c hd]

end Agree

/-- Doors and entries agree after a call that comes back just when the random ranks fit the escape
cells left up to some pass and exceed their number from then on. -/
theorem doorsAgree_iff (env : PlaceEnv) (l : Level) (es : List BootEntry) (hn : es.length ≤ 12) :
    DoorsAgree env l es ↔ (l.IconsSized env es → ∃ p ≤ es.length,
      (∀ i < p, (randIndex env i).toNat < l.escapes.length - i) ∧
      ∀ i, p ≤ i → i < es.length → l.escapes.length - p ≤ (randIndex env i).toNat) := by
  by_cases hsized : l.IconsSized env es
  · obtain ⟨s, hs, -⟩ := exists_placed hn hsized
    rw [doorsAgree_iff_count hs, ← Draw.count_eq_iff_exists_prefix, forall_prop_of_true hsized]
    simp only [Draw.draws_iff, forall_exists_index]
    rfl
  · refine iff_of_true ?_ fun h => absurd h hsized
    intro s hs
    exact absurd (placed_of_placeBootEntries hs).2.1 hsized

/-- Eleven textures, and one escape cell above the start cell. -/
def oneEscape : Level where
  map := narrowMap (List.replicate 16 [0, 0] ++ [[0, 10], [0, 0]]) (by decide) (by decide)
  textures := List.replicate 11 [Pixel.zero]
  fits := by decide

theorem doorsAgree_iff_oneEscape :
    DoorsAgree (sampleEnv fun _ => 0) oneEscape [sampleEntry, sampleEntry] ↔
      (oneEscape.IconsSized (sampleEnv fun _ => 0) [sampleEntry, sampleEntry] →
        ∃ p ≤ [sampleEntry, sampleEntry].length,
          (∀ i < p, (randIndex (sampleEnv fun _ => 0) i).toNat < oneEscape.escapes.length - i) ∧
          ∀ i, p ≤ i → i < [sampleEntry, sampleEntry].length →
            oneEscape.escapes.length - p ≤ (randIndex (sampleEnv fun _ => 0) i).toNat) :=
  doorsAgree_iff (sampleEnv fun _ => 0) oneEscape [sampleEntry, sampleEntry] (by decide)

theorem iconsSized_sampleEnv (rand : ℕ → INT32) (l : Level) (n : ℕ) :
    l.IconsSized (sampleEnv rand) (List.replicate n sampleEntry) := by
  intro i e c he _
  obtain rfl : e = sampleEntry := List.eq_of_mem_replicate (List.mem_of_getElem? he)
  change Bmp.Sized (readBMP (sampleEnv fun _ => 0).fs sampleEntry.icon ⟨0, 0, []⟩).2
  decide +kernel

/-- The first pass misses the only escape cell, so the door of entry `1` gets the number of
entry `0`. -/
theorem not_doorsAgree_oneEscape :
    ¬ DoorsAgree (sampleEnv fun i => if i = 0 then 5 else 0) oneEscape
      [sampleEntry, sampleEntry] := by
  have hdoor : oneEscape.door (sampleEnv fun i => if i = 0 then 5 else 0) 1 = some (1, 16) := by
    decide +kernel
  have hn : [sampleEntry, sampleEntry].length ≤ 12 := by decide
  obtain ⟨s, hs, -⟩ := exists_placed hn
    (iconsSized_sampleEnv (fun i => if i = 0 then 5 else 0) oneEscape 2)
  rw [doorsAgree_iff_count hs]
  intro h
  exact absurd (h 1 (by decide) (1, 16) hdoor) (by decide +kernel)

end UefiGame
