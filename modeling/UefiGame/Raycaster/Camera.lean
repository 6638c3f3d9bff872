import UefiGame.Library.Rotation
import UefiGame.Raycaster.Frame

/-! # The camera frame

Direction and camera plane start orthogonal and are only ever turned together.
So they stay orthogonal, of their lengths and in their orientation through
every run of keys, and they return to where they started once as many turns to
the left as to the right were taken.
-/

namespace UefiGame

open Rotation

/-- The direction and the camera plane. -/
def View.camera {K : Type*} (v : View K) : (K × K) × (K × K) :=
  ((v.dirX, v.dirY), (v.planeX, v.planeY))

theorem View.eq_of_camera {K : Type*} {v w : View K} (hx : v.posX = w.posX) (hy : v.posY = w.posY)
    (hcamera : v.camera = w.camera) : v = w := by
  obtain ⟨posX, posY, dirX, dirY, planeX, planeY⟩ := v
  obtain ⟨posX', posY', dirX', dirY', planeX', planeY'⟩ := w
  simp only [View.camera, Prod.mk.injEq] at hx hy hcamera
  obtain ⟨⟨rfl, rfl⟩, rfl, rfl⟩ := hcamera
  obtain rfl := hx
  obtain rfl := hy
  rfl

section Frame

variable {K : Type*} [Field K]

/-- The locals of `Game` before its loop: at (1.5, 17.5), along the first axis,
the plane 0.66 wide. -/
def initialView : View K := ⟨15 / 10, 175 / 10, 1, 0, 0, 33 / 50⟩

/-- Direction and plane are orthogonal, of their initial lengths, the plane on the same side. -/
structure View.Framed (v : View K) : Prop where
  dir_sq : v.dirX ^ 2 + v.dirY ^ 2 = 1
  plane_sq : v.planeX ^ 2 + v.planeY ^ 2 = (33 / 50) ^ 2
  orthogonal : v.dirX * v.planeX + v.dirY * v.planeY = 0
  oriented : v.dirX * v.planeY - v.dirY * v.planeX = 33 / 50

theorem View.framed_iff {v : View K} : v.Framed ↔
    dot v.camera.1 v.camera.1 = 1 ∧ dot v.camera.2 v.camera.2 = (33 / 50) ^ 2 ∧
      dot v.camera.1 v.camera.2 = 0 ∧ cross v.camera.1 v.camera.2 = 33 / 50 := by
  simp only [View.camera, dot, cross, ← pow_two]
  constructor
  · rintro ⟨hdir, hplane, horth, horient⟩
    exact ⟨hdir, hplane, horth, horient⟩
  · rintro ⟨hdir, hplane, horth, horient⟩
    exact ⟨hdir, hplane, horth, horient⟩

theorem initialView_framed : (initialView : View K).Framed := by
  constructor <;> simp [initialView]

/-- It is the view that the loop begins with. -/
example [CharZero K] [LinearOrder K] [FloorRing K] :
    (viewStart : ViewState K).view = initialView := by
  norm_num [viewStart, initialView]

end Frame

section Keys

variable {K : Type*} [Field K] [LinearOrder K] [FloorRing K] {m : MazeMap} {bs : UINTN}
  {cosine sine : K} {v : View K} {keys : List ScanCode}

/-- The view after a run of keys. -/
def viewAfter (m : MazeMap) (bootableStart : UINTN) (cosine sine : K) (v : View K)
    (keys : List ScanCode) : View K :=
  keys.foldl (viewSwitch m bootableStart cosine sine) v

/-- The turns to the right a key makes. -/
def rightTurns : ScanCode → ℤ
  | .left => -1
  | .right => 1
  | _ => 0

theorem camera_viewSwitch (h : cosine * cosine + sine * sine = 1) (m : MazeMap) (bs : UINTN)
    (v : View K) (key : ScanCode) :
    (viewSwitch m bs cosine sine v key).camera = (turnPair h ^ rightTurns key) v.camera := by
  cases key with
  | left =>
    have hback : (turnPair h).symm v.camera =
        (rotate cosine (-sine) v.camera.1, rotate cosine (-sine) v.camera.2) := rfl
    rw [rightTurns, zpow_neg_one, Equiv.Perm.inv_def, hback]
    rfl
  | right =>
    rw [rightTurns, zpow_one]
    rfl
  | up => rfl
  | down => rfl
  | esc => rfl
  | other code => rfl

/-- A run of keys turns the camera by the sum of their turns. -/
theorem camera_viewAfter (h : cosine * cosine + sine * sine = 1) :
    (viewAfter m bs cosine sine v keys).camera =
      (turnPair h ^ (keys.map rightTurns).sum) v.camera := by
  unfold viewAfter
  rw [← foldl_zpow]
  symm
  apply List.foldl_hom View.camera
  intro v key
  exact (camera_viewSwitch h m bs v key).symm

theorem sum_rightTurns (keys : List ScanCode) :
    (keys.map rightTurns).sum = (keys.count .right : ℤ) - keys.count .left := by
  induction keys with
  | nil => rfl
  | cons key keys ih =>
    rw [List.map_cons, List.sum_cons, ih, List.count_cons, List.count_cons]
    cases key <;> simp [rightTurns] <;> ring

theorem View.Framed.viewSwitch (h : cosine * cosine + sine * sine = 1) (hv : v.Framed)
    (m : MazeMap) (bs : UINTN) (key : ScanCode) :
    (viewSwitch m bs cosine sine v key).Framed := by
  have hturn : ∀ s : K, cosine * cosine + s * s = 1 → (turn cosine s v).Framed := by
    intro s hs
    obtain ⟨hdir, hplane, horth, horient⟩ := View.framed_iff.mp hv
    have hcamera : (turn cosine s v).camera =
        (rotate cosine s v.camera.1, rotate cosine s v.camera.2) := rfl
    rw [View.framed_iff, hcamera, dot_rotate hs, dot_rotate hs, dot_rotate hs, cross_rotate hs]
    exact ⟨hdir, hplane, horth, horient⟩
  cases key with
  | left => exact hturn (-sine) (by rwa [neg_mul_neg])
  | right => exact hturn sine h
  | up => exact ⟨hv.dir_sq, hv.plane_sq, hv.orthogonal, hv.oriented⟩
  | down => exact ⟨hv.dir_sq, hv.plane_sq, hv.orthogonal, hv.oriented⟩
  | esc => exact hv
  | other code => exact hv

theorem View.Framed.viewAfter (h : cosine * cosine + sine * sine = 1) (hv : v.Framed) :
    (viewAfter m bs cosine sine v keys).Framed := by
  induction keys generalizing v with
  | nil => exact hv
  | cons key keys ih => exact ih (hv.viewSwitch h m bs key)

theorem pos_viewAfter (hup : ScanCode.up ∉ keys) (hdown : ScanCode.down ∉ keys) :
    (viewAfter m bs cosine sine v keys).posX = v.posX ∧
      (viewAfter m bs cosine sine v keys).posY = v.posY := by
  induction keys generalizing v with
  | nil => exact ⟨rfl, rfl⟩
  | cons key keys ih =>
    rw [List.mem_cons, not_or] at hup hdown
    have hstep : (viewSwitch m bs cosine sine v key).posX = v.posX ∧
        (viewSwitch m bs cosine sine v key).posY = v.posY := by
      cases key with
      | up => exact absurd rfl hup.1
      | down => exact absurd rfl hdown.1
      | left => exact ⟨rfl, rfl⟩
      | right => exact ⟨rfl, rfl⟩
      | esc => exact ⟨rfl, rfl⟩
      | other code => exact ⟨rfl, rfl⟩
    obtain ⟨hx, hy⟩ := ih (v := viewSwitch m bs cosine sine v key) hup.2 hdown.2
    exact ⟨hx.trans hstep.1, hy.trans hstep.2⟩

end Keys

/-- Through every run of keys the camera keeps its frame, and it is back at its start once both
arrow keys that turn were pressed equally often. -/
theorem viewAfter_framed {K : Type*} [Field K] [LinearOrder K] [FloorRing K] {cosine sine : K}
    (h : cosine * cosine + sine * sine = 1) (m : MazeMap) (bs : UINTN) (keys : List ScanCode) :
    (viewAfter m bs cosine sine initialView keys).Framed ∧
      (keys.count .left = keys.count .right →
        (viewAfter m bs cosine sine initialView keys).camera = initialView.camera ∧
        (ScanCode.up ∉ keys → ScanCode.down ∉ keys →
          viewAfter m bs cosine sine initialView keys = initialView)) := by
  refine ⟨View.Framed.viewAfter h initialView_framed, fun hcount => ?_⟩
  have hcamera : (viewAfter m bs cosine sine initialView keys).camera =
      (initialView : View K).camera := by
    rw [camera_viewAfter h, sum_rightTurns, hcount, sub_self, zpow_zero, Equiv.Perm.one_apply]
  refine ⟨hcamera, fun hup hdown => ?_⟩
  obtain ⟨hx, hy⟩ := pos_viewAfter (K := K) (v := initialView) hup hdown
  exact View.eq_of_camera hx hy hcamera

theorem viewAfter_framed_three_four :
    (viewAfter cornerMap 11 (3 / 5 : ℚ) (4 / 5) initialView [.left, .esc, .right]).Framed ∧
      (viewAfter cornerMap 11 (3 / 5 : ℚ) (4 / 5) initialView [.left, .esc, .right]).camera =
        initialView.camera ∧
      viewAfter cornerMap 11 (3 / 5 : ℚ) (4 / 5) initialView [.left, .esc, .right] =
        initialView := by
  have hunit : (3 / 5 : ℚ) * (3 / 5) + 4 / 5 * (4 / 5) = 1 := by norm_num
  obtain ⟨hframed, hback⟩ :=
    viewAfter_framed (K := ℚ) hunit cornerMap 11
      [.left, .esc, .right]
  obtain ⟨hcamera, hview⟩ := hback (by decide)
  exact ⟨hframed, hcamera, hview (by decide) (by decide)⟩

end UefiGame
