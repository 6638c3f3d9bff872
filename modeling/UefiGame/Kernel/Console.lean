import UefiGame.Firmware.Types
import UefiGame.Library.Interleaving
import UefiGame.Library.RingBuffer

/-! # Console input of the kernel

The interrupt handler edits a line in the ring between the write index and the
edit index; a finished line moves the write index up to the edit index, and
readers take bytes from the read index on. The ring with its three indices
refines a line editor that keeps the unread bytes and the line as two lists.
-/

namespace UefiGame.Kernel

open RingBuffer

def INPUT_BUF : ℕ := 128

instance : NeZero INPUT_BUF := ⟨by decide⟩

/-- `C(x)`, a control character. -/
def C (x : Char) : CHAR8 := BitVec.ofNat 8 (x.toNat - '@'.toNat)

def newline : CHAR8 := BitVec.ofNat 8 '\n'.toNat

def carriageReturn : CHAR8 := BitVec.ofNat 8 '\r'.toNat

def delete : CHAR8 := 0x7f

/-- What `consputc` is asked to show. -/
inductive Echo
  | put (c : CHAR8)
  | backspace

/-- The ring of `input`, and what has been echoed. -/
structure Console where
  buf : Fin INPUT_BUF → CHAR8
  r : UINT32
  w : UINT32
  e : UINT32
  echo : List Echo

/-- `input.e--` with the backspace shown. -/
def Console.erase (s : Console) : Console :=
  { s with e := s.e - 1, echo := s.echo ++ [.backspace] }

/-- `input.buf[input.e++ % INPUT_BUF] = c` with the character shown. -/
def Console.store (s : Console) (c : CHAR8) : Console :=
  { s with
    buf := Function.update s.buf (slot INPUT_BUF s.e) c
    e := s.e + 1
    echo := s.echo ++ [.put c] }

/-- The loop of control-U. -/
def killLine (s : Console) : Console :=
  if s.e ≠ s.w ∧ s.buf (slot INPUT_BUF (s.e - 1)) ≠ newline then killLine s.erase else s
termination_by held s.w s.e
decreasing_by
  rename_i h
  have hpos := Nat.pos_of_ne_zero (mt held_eq_zero_iff.mp (Ne.symm h.1))
  have hstep := held_sub_one hpos
  change held s.w (s.e - 1) < held s.w s.e
  omega

/-- One character of `consoleintr`; the flag tells of `wakeup(&input.r)`. -/
def consoleintr (s : Console) (c : CHAR8) : Console × Bool :=
  if c = C 'P' then (s, false)
  else if c = C 'U' then (killLine s, false)
  else if c = C 'H' ∨ c = delete then (if s.e ≠ s.w then s.erase else s, false)
  else if c ≠ 0 ∧ (s.e - s.r).toNat < INPUT_BUF then
    let c := if c = carriageReturn then newline else c
    let s := s.store c
    if c = newline ∨ c = C 'D' ∨ s.e = s.r + BitVec.ofNat 32 INPUT_BUF then
      ({ s with w := s.e }, true)
    else (s, false)
  else (s, false)

/-- How a stretch of `consoleread` under the lock ends; at `eof` a control-D has been taken. -/
inductive ReadEnd
  | done
  | eof
  | failed
  | sleeps
  deriving DecidableEq

/-- The loop of `consoleread` with `n` bytes of `target` still wanted, and the bytes it copies. -/
def consoleread (killed : Bool) (target : ℕ) : ℕ → Console → Console × List CHAR8 × ReadEnd
  | 0, s => (s, [], .done)
  | n + 1, s =>
    if s.r = s.w then (s, [], if killed then .failed else .sleeps)
    else
      let c := s.buf (slot INPUT_BUF s.r)
      let s := { s with r := s.r + 1 }
      if c = C 'D' then
        if n + 1 < target then ({ s with r := s.r - 1 }, [], .done) else (s, [], .eof)
      else if c = newline then (s, [c], .done)
      else
        let (s, bytes, stop) := consoleread killed target n s
        (s, c :: bytes, stop)

/-! ## The line editor -/

/-- The finished bytes nobody has read, and the line being typed. -/
structure LineEditor where
  unread : List CHAR8
  line : List CHAR8

/-- What a key does to the line editor. -/
def LineEditor.key (l : LineEditor) (c : CHAR8) : LineEditor :=
  if c = C 'P' then l
  else if c = C 'U' then { l with line := [] }
  else if c = C 'H' ∨ c = delete then { l with line := l.line.dropLast }
  else if c ≠ 0 ∧ l.unread.length + l.line.length < INPUT_BUF then
    let c := if c = carriageReturn then newline else c
    let line := l.line ++ [c]
    if c = newline ∨ c = C 'D' ∨ l.unread.length + line.length = INPUT_BUF then
      { unread := l.unread ++ line, line := [] }
    else { l with line := line }
  else l

/-- What is on the screen: a backspace takes the last character back. -/
def shown (echo : List Echo) : List CHAR8 :=
  echo.foldl (fun text e => match e with
    | .put c => text ++ [c]
    | .backspace => text.dropLast) []

namespace Console

/-- The line editor a ring stands for. -/
def editor (s : Console) : LineEditor where
  unread := RingBuffer.contents s.buf s.r s.w
  line := RingBuffer.contents s.buf s.w s.e

/-- The indices in their order, and no line end in the line being typed. -/
structure Ordered (s : Console) : Prop where
  le : held s.r s.w ≤ held s.r s.e
  full : held s.r s.e ≤ INPUT_BUF
  line : ∀ c ∈ s.editor.line, c ≠ newline ∧ c ≠ C 'D'

theorem inputBuf_dvd : INPUT_BUF ∣ 2 ^ 32 := ⟨2 ^ 25, by decide⟩

theorem inputBuf_lt : INPUT_BUF < 2 ^ 32 := by decide

variable {s : Console}

theorem contents_editor (hs : Ordered s) :
    RingBuffer.contents s.buf s.r s.e = s.editor.unread ++ s.editor.line :=
  contents_append hs.le

theorem length_line (hs : Ordered s) :
    s.editor.unread.length + s.editor.line.length = held s.r s.e := by
  rw [← List.length_append, ← contents_editor hs, length_contents]

theorem line_eq_nil_iff : s.editor.line = [] ↔ s.e = s.w := by
  rw [editor, contents_eq_nil_iff, eq_comm]

theorem editor_erase (h : s.e ≠ s.w) :
    s.erase.editor = { s.editor with line := s.editor.line.dropLast } := by
  have hpos : 0 < held s.w s.e := Nat.pos_of_ne_zero (mt held_eq_zero_iff.mp (Ne.symm h))
  have hdrop : contents s.buf s.w (s.e - 1) = (contents s.buf s.w s.e).dropLast :=
    contents_dropLast hpos
  simpa [editor, erase] using hdrop

theorem ordered_erase (hs : Ordered s) (h : s.e ≠ s.w) : Ordered s.erase := by
  have hlen := length_line hs
  have hline : s.editor.line ≠ [] := mt line_eq_nil_iff.mp h
  have hpos := List.length_pos_iff_ne_nil.mpr hline
  have hsub : held s.r (s.e - 1) = held s.r s.e - 1 := held_sub_one (by omega)
  have hunread : s.editor.unread.length = held s.r s.w := length_contents
  constructor
  · change held s.r s.w ≤ held s.r (s.e - 1)
    omega
  · change held s.r (s.e - 1) ≤ INPUT_BUF
    have hfull := hs.full
    omega
  · rw [editor_erase h]
    exact fun c hc => hs.line c ((List.dropLast_sublist _).subset hc)

theorem shown_append_put (echo : List Echo) (c : CHAR8) :
    shown (echo ++ [.put c]) = shown echo ++ [c] := by
  simp [shown]

theorem shown_append_backspace (echo : List Echo) :
    shown (echo ++ [.backspace]) = (shown echo).dropLast := by
  simp [shown]

/-- What a key does to the ring: `c` are the bytes it adds to the finished ones. -/
structure KeySpec (s t : Console) (k : CHAR8) (woken : Bool) : Prop where
  editor : t.editor = s.editor.key k
  ordered : Ordered t
  r : t.r = s.r
  unread : t.editor.unread = s.editor.unread ++ RingBuffer.contents t.buf s.w t.w
  shown : ∀ finished, shown s.echo = finished ++ s.editor.line →
    shown t.echo = finished ++ RingBuffer.contents t.buf s.w t.w ++ t.editor.line
  quiet : woken = false → t.w = s.w

theorem last_line (h : s.e ≠ s.w) : s.buf (slot INPUT_BUF (s.e - 1)) ∈ s.editor.line := by
  have hpos : 0 < held s.w s.e := Nat.pos_of_ne_zero (mt held_eq_zero_iff.mp (Ne.symm h))
  rw [editor, contents_concat hpos]
  simp

theorem shown_erase (h : s.e ≠ s.w) {finished : List CHAR8}
    (hshown : Kernel.shown s.echo = finished ++ s.editor.line) :
    Kernel.shown s.erase.echo = finished ++ s.erase.editor.line := by
  rw [editor_erase h, erase, shown_append_backspace, hshown,
    List.dropLast_append_of_ne_nil (mt line_eq_nil_iff.mp h)]

theorem killLine_spec (hs : Ordered s) : Ordered (killLine s) ∧ (killLine s).w = s.w ∧
    (killLine s).r = s.r ∧ (killLine s).editor = { s.editor with line := [] } ∧
    ∀ finished, Kernel.shown s.echo = finished ++ s.editor.line →
      Kernel.shown (killLine s).echo = finished := by
  fun_induction killLine s with
  | case1 s h ih =>
    obtain ⟨hordered, hw, hr, heditor, hshown⟩ := ih (ordered_erase hs h.1)
    refine ⟨hordered, hw, hr, ?_, fun finished hf => hshown finished (shown_erase h.1 hf)⟩
    rw [heditor, editor_erase h.1]
  | case2 s h =>
    have hempty : s.e = s.w := by
      by_contra hne
      exact h ⟨hne, (hs.line _ (last_line hne)).1⟩
    have hline := line_eq_nil_iff.mpr hempty
    refine ⟨hs, rfl, rfl, ?_, fun finished hf => by rw [hf, hline, List.append_nil]⟩
    rw [← hline]

theorem held_store (hroom : held s.r s.e < INPUT_BUF) (c : CHAR8) :
    held s.r (s.store c).e = held s.r s.e + 1 :=
  held_add_one (by have := inputBuf_lt; omega)

theorem editor_store (hs : Ordered s) (hroom : held s.r s.e < INPUT_BUF) (c : CHAR8) :
    (s.store c).editor = { s.editor with line := s.editor.line ++ [c] } := by
  have hadd := held_add hs.le
  have hunread : RingBuffer.contents (Function.update s.buf (slot INPUT_BUF s.e) c) s.r s.w =
      RingBuffer.contents s.buf s.r s.w := contents_update inputBuf_dvd hs.le hroom
  have hline : RingBuffer.contents (Function.update s.buf (slot INPUT_BUF s.e) c) s.w (s.e + 1) =
      RingBuffer.contents s.buf s.w s.e ++ [c] :=
    contents_push inputBuf_dvd inputBuf_lt (by omega)
  simp only [editor, store, hunread, hline]

theorem keySpec_refl (hs : Ordered s) {k : CHAR8} (heditor : s.editor.key k = s.editor) :
    KeySpec s s k false where
  editor := heditor.symm
  ordered := hs
  r := rfl
  unread := by simp
  shown finished h := by simpa using h
  quiet _ := rfl

theorem KeySpec.of_edit {t : Console} {k : CHAR8} (ht : Ordered t) (hw : t.w = s.w) (hr : t.r = s.r)
    (heditor : t.editor = s.editor.key k) (hunread : (s.editor.key k).unread = s.editor.unread)
    (hshown : ∀ finished, Kernel.shown s.echo = finished ++ s.editor.line →
      Kernel.shown t.echo = finished ++ t.editor.line) : KeySpec s t k false where
  editor := heditor
  ordered := ht
  r := hr
  unread := by rw [heditor, hunread, hw, contents_self, List.append_nil]
  shown finished h := by rw [hw, contents_self, List.append_nil, hshown finished h]
  quiet _ := hw

theorem shown_store (hs : Ordered s) (hroom : held s.r s.e < INPUT_BUF) (c : CHAR8)
    {finished : List CHAR8} (h : Kernel.shown s.echo = finished ++ s.editor.line) :
    Kernel.shown (s.store c).echo = finished ++ (s.store c).editor.line := by
  rw [editor_store hs hroom, store, shown_append_put, h, List.append_assoc]

theorem full_store_iff (hs : Ordered s) (hroom : held s.r s.e < INPUT_BUF) (c : CHAR8) :
    (s.store c).e = s.r + BitVec.ofNat 32 INPUT_BUF ↔
      s.editor.unread.length + (s.editor.line ++ [c]).length = INPUT_BUF := by
  have hlen := length_line hs
  rw [← held_eq_iff inputBuf_lt, held_store hroom, List.length_append, List.length_singleton]
  omega

theorem ordered_store (hs : Ordered s) (hroom : held s.r s.e < INPUT_BUF) {c : CHAR8}
    (hc : c ≠ newline ∧ c ≠ C 'D') : Ordered (s.store c) where
  le := by
    change held s.r s.w ≤ held s.r (s.store c).e
    rw [held_store hroom]
    exact hs.le.trans (Nat.le_succ _)
  full := by
    change held s.r (s.store c).e ≤ INPUT_BUF
    rw [held_store hroom]
    exact hroom
  line := by
    rw [editor_store hs hroom]
    intro b hb
    rcases List.mem_append.mp hb with hb | hb
    · exact hs.line b hb
    · rwa [List.mem_singleton.mp hb]

theorem keySpec_commit (hs : Ordered s) (hroom : held s.r s.e < INPUT_BUF) {c k : CHAR8}
    (hkey : s.editor.key k =
      { unread := s.editor.unread ++ (s.editor.line ++ [c]), line := [] }) :
    KeySpec s { s.store c with w := (s.store c).e } k true := by
  have hstore := editor_store hs hroom c
  have hfull : held s.r (s.store c).e ≤ INPUT_BUF := by
    rw [held_store hroom]
    exact hroom
  have hline : RingBuffer.contents (s.store c).buf s.w (s.store c).e = s.editor.line ++ [c] :=
    congrArg LineEditor.line hstore
  have hunread : RingBuffer.contents (s.store c).buf s.r s.w = s.editor.unread :=
    congrArg LineEditor.unread hstore
  have hle : held s.r s.w ≤ held s.r (s.store c).e := by
    rw [held_store hroom]
    exact hs.le.trans (Nat.le_succ _)
  have hall : RingBuffer.contents (s.store c).buf s.r (s.store c).e =
      s.editor.unread ++ (s.editor.line ++ [c]) := by
    rw [contents_append hle, hunread, hline]
  have heditor : editor { s.store c with w := (s.store c).e } =
      { unread := s.editor.unread ++ (s.editor.line ++ [c]), line := [] } := by
    rw [← hall]
    simp [editor, store]
  refine ⟨heditor.trans hkey.symm, ⟨le_rfl, hfull, ?_⟩, rfl, ?_, ?_, fun h => by cases h⟩
  · rw [heditor]
    simp
  · rw [heditor, ← hline]
  · intro finished h
    rw [heditor, List.append_nil]
    change Kernel.shown (s.store c).echo = finished ++ RingBuffer.contents (s.store c).buf s.w _
    rw [hline, shown_store hs hroom c h, hstore]

theorem consoleintr_spec (hs : Ordered s) (k : CHAR8) :
    KeySpec s (consoleintr s k).1 k (consoleintr s k).2 := by
  rw [consoleintr]
  by_cases hP : k = C 'P'
  · rw [if_pos hP]
    exact keySpec_refl hs (by rw [LineEditor.key, if_pos hP])
  by_cases hU : k = C 'U'
  · rw [if_neg hP, if_pos hU]
    obtain ⟨hordered, hw, hr, heditor, hshown⟩ := killLine_spec hs
    have hkey : s.editor.key k = { s.editor with line := [] } := by
      rw [LineEditor.key, if_neg hP, if_pos hU]
    refine .of_edit hordered hw hr (heditor.trans hkey.symm) (by rw [hkey]) fun finished h => ?_
    rw [hshown finished h, heditor, List.append_nil]
  by_cases hH : k = C 'H' ∨ k = delete
  · rw [if_neg hP, if_neg hU, if_pos hH]
    have hkey : s.editor.key k = { s.editor with line := s.editor.line.dropLast } := by
      rw [LineEditor.key, if_neg hP, if_neg hU, if_pos hH]
    by_cases hempty : s.e = s.w
    · rw [if_neg (not_not.mpr hempty)]
      refine keySpec_refl hs ?_
      rw [hkey, line_eq_nil_iff.mpr hempty, List.dropLast_nil, ← line_eq_nil_iff.mpr hempty]
    · rw [if_pos hempty]
      exact .of_edit (ordered_erase hs hempty) rfl rfl ((editor_erase hempty).trans hkey.symm)
        (by rw [hkey]) fun finished h => shown_erase hempty h
  rw [if_neg hP, if_neg hU, if_neg hH]
  have hlen := length_line hs
  by_cases hput : k ≠ 0 ∧ (s.e - s.r).toNat < INPUT_BUF
  · have hroom : held s.r s.e < INPUT_BUF := hput.2
    have hkey := LineEditor.key.eq_1 s.editor k
    rw [if_neg hP, if_neg hU, if_neg hH, if_pos (by rwa [hlen])] at hkey
    rw [if_pos hput]
    dsimp only at hkey ⊢
    generalize (if k = carriageReturn then newline else k) = c at hkey ⊢
    by_cases hend : c = newline ∨ c = C 'D' ∨
        (s.store c).e = s.r + BitVec.ofNat 32 INPUT_BUF
    · rw [if_pos (by rwa [← full_store_iff hs hroom])] at hkey
      rw [if_pos (by exact hend)]
      exact keySpec_commit hs hroom hkey
    · rw [if_neg (by rwa [← full_store_iff hs hroom])] at hkey
      rw [if_neg (by exact hend)]
      rw [not_or, not_or] at hend
      exact .of_edit (ordered_store hs hroom ⟨hend.1, hend.2.1⟩) rfl rfl
        ((editor_store hs hroom c).trans hkey.symm) (by rw [hkey])
        fun finished h => shown_store hs hroom c h
  · rw [if_neg hput]
    refine keySpec_refl hs ?_
    rw [LineEditor.key, if_neg hP, if_neg hU, if_neg hH, if_neg (by rwa [hlen])]

end Console

end UefiGame.Kernel
