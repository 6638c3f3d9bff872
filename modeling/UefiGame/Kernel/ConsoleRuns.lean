import UefiGame.Kernel.Console

/-! # Typing and reading at the console

Keys and any number of readers share the ring. Whatever they do in between,
the screen shows the finished lines and the line being typed, readers get the
finished bytes once each and in order, and no reader sleeps on bytes it could
have.
-/

namespace UefiGame.Kernel

open Interleaving RingBuffer

/-- A process in `consoleread`, with the bytes it has copied so far. -/
inductive Reader
  | idle
  | reading (target : ℕ) (got : List CHAR8) (asleep : Bool)

namespace Reader

def wake : Reader → Reader
  | reading target got _ => reading target got false
  | idle => idle

def got : Reader → List CHAR8
  | reading _ got _ => got
  | idle => []

end Reader

/-- The console with its readers. `committed` are all bytes that ever became readable, `taken` those
that left the ring with who took them, and `calls i` the requested length and the bytes of the
finished calls of process `i`. -/
structure ConsoleSystem (ι : Type*) where
  cons : Console
  reader : ι → Reader
  committed : List CHAR8
  taken : List (ι × CHAR8)
  calls : ι → List (ℕ × List CHAR8)

variable {ι : Type*}

/-- The console before the first key. -/
def consoleinit (buf : Fin INPUT_BUF → CHAR8) : ConsoleSystem ι where
  cons := ⟨buf, 0, 0, 0, []⟩
  reader _ := .idle
  committed := []
  taken := []
  calls _ := []

/-- A key reaches the interrupt handler. -/
def typeKey (s : ConsoleSystem ι) (k : CHAR8) : ConsoleSystem ι :=
  let (cons, woken) := consoleintr s.cons k
  { s with
    cons := cons
    committed := s.committed ++ contents cons.buf s.cons.w cons.w
    reader := fun i => if woken then (s.reader i).wake else s.reader i }

variable [DecidableEq ι]

/-- A stretch of `consoleread` by process `i`. -/
def runReader (s : ConsoleSystem ι) (i : ι) (target : ℕ) (got : List CHAR8) (killed : Bool) :
    ConsoleSystem ι :=
  let (cons, bytes, stop) := consoleread killed target (target - got.length) s.cons
  let out := bytes ++ if stop = .eof then [C 'D'] else []
  let s := { s with cons := cons, taken := s.taken ++ out.map fun b => (i, b) }
  if stop = .sleeps then
    { s with reader := Function.update s.reader i (.reading target (got ++ bytes) true) }
  else
    { s with
      reader := Function.update s.reader i .idle
      calls := Function.update s.calls i (s.calls i ++ [(target, got ++ bytes)]) }

inductive ConsoleAction (ι : Type*)
  | key (k : CHAR8)
  | read (i : ι) (n : ℕ)
  | run (i : ι) (killed : Bool)
  | kill (i : ι)

def consoleStep (s : ConsoleSystem ι) : ConsoleAction ι → Option (ConsoleSystem ι)
  | .key k => some (typeKey s k)
  | .read i n => match s.reader i with
    | .idle => some { s with reader := Function.update s.reader i (.reading n [] false) }
    | _ => none
  | .run i killed => match s.reader i with
    | .reading target got false => some (runReader s i target got killed)
    | _ => none
  | .kill i => some { s with reader := Function.update s.reader i (s.reader i).wake }

/-! ## One stretch of reading -/

namespace Console

variable {s : Console}

theorem unread_advance (h : s.r ≠ s.w) : s.editor.unread =
    s.buf (slot INPUT_BUF s.r) :: ({ s with r := s.r + 1 } : Console).editor.unread :=
  contents_pop (Nat.pos_of_ne_zero (mt held_eq_zero_iff.mp h))

theorem ordered_advance (hs : Ordered s) (h : s.r ≠ s.w) : Ordered { s with r := s.r + 1 } := by
  have hpos := Nat.pos_of_ne_zero (mt held_eq_zero_iff.mp h)
  have hle := hs.le
  have hfull := hs.full
  have hw : held (s.r + 1) s.w = held s.r s.w - 1 := held_advance hpos
  have he : held (s.r + 1) s.e = held s.r s.e - 1 := held_advance (by omega)
  refine ⟨?_, ?_, hs.line⟩
  · change held (s.r + 1) s.w ≤ held (s.r + 1) s.e
    omega
  · change held (s.r + 1) s.e ≤ INPUT_BUF
    omega

theorem notMem_dropLast_append {c : CHAR8} {l bs : List CHAR8} (hl : c ∉ l)
    (hbs : c ∉ bs.dropLast) :
    c ∉ (l ++ bs).dropLast := by
  rw [List.dropLast_append]
  split_ifs
  · exact fun h => hl ((List.dropLast_sublist l).subset h)
  · rw [List.mem_append, not_or]
    exact ⟨hl, hbs⟩

/-- What a stretch of `consoleread` takes from the ring and copies. -/
structure ReadSpec (s : Console) (target n : ℕ) (r : Console × List CHAR8 × ReadEnd) : Prop where
  ordered : Ordered r.1
  line : r.1.editor.line = s.editor.line
  echo : r.1.echo = s.echo
  unread : s.editor.unread =
    r.2.1 ++ (if r.2.2 = .eof then [C 'D'] else []) ++ r.1.editor.unread
  length_le : r.2.1.length ≤ n
  control : C 'D' ∉ r.2.1
  oneLine : newline ∉ r.2.1.dropLast
  waits : r.2.2 = .sleeps ∨ r.2.2 = .failed →
    r.1.r = r.1.w ∧ r.2.1.length < n ∧ newline ∉ r.2.1
  eof : r.2.2 = .eof → r.2.1 = [] ∧ n = target

theorem consoleread_spec (hs : Ordered s) (killed : Bool) {target n : ℕ} (hn : n ≤ target) :
    ReadSpec s target n (consoleread killed target n s) := by
  induction n generalizing s with
  | zero => constructor <;> simp [consoleread, hs]
  | succ n ih =>
    rw [consoleread]
    by_cases hempty : s.r = s.w
    · rw [if_pos hempty]
      cases killed <;> constructor <;> simp [hs, hempty]
    rw [if_neg hempty]
    have hunread := unread_advance hempty
    have hordered := ordered_advance hs hempty
    dsimp only
    by_cases hD : s.buf (slot INPUT_BUF s.r) = C 'D'
    · rw [if_pos hD]
      by_cases hlt : n + 1 < target
      · rw [if_pos hlt, BitVec.add_sub_cancel]
        constructor <;> simp [hs]
      · have htarget : n + 1 = target := by omega
        rw [if_neg hlt]
        exact ⟨hordered, rfl, rfl, by simpa [hD] using hunread, by simp, by simp, by simp, by simp,
          by simp [htarget]⟩
    rw [if_neg hD]
    by_cases hnl : s.buf (slot INPUT_BUF s.r) = newline
    · rw [if_pos hnl]
      exact ⟨hordered, rfl, rfl, by simpa using hunread, by simp, by simpa using Ne.symm hD,
        by simp,
        by simp, by simp⟩
    rw [if_neg hnl]
    have hrest := ih hordered (by omega)
    refine ⟨hrest.ordered, hrest.line, hrest.echo, ?_, ?_, ?_, ?_, ?_, ?_⟩
    · rw [hunread, hrest.unread]
      rfl
    · exact Nat.succ_le_succ hrest.length_le
    · exact List.not_mem_cons_of_ne_of_not_mem (Ne.symm hD) hrest.control
    · exact notMem_dropLast_append (l := [_]) (by simpa using Ne.symm hnl) hrest.oneLine
    · intro hwait
      obtain ⟨hr, hlt, hnone⟩ := hrest.waits hwait
      exact ⟨hr, Nat.succ_lt_succ hlt, List.not_mem_cons_of_ne_of_not_mem (Ne.symm hnl) hnone⟩
    · intro heof
      have := (hrest.eof heof).2
      omega

end Console

/-! ## Runs -/

variable {s t : ConsoleSystem ι} {i : ι}

/-- What every key and every reader keeps. -/
structure ConsoleInv (s : ConsoleSystem ι) : Prop where
  ordered : s.cons.Ordered
  fifo : s.committed = s.taken.map Prod.snd ++ s.cons.editor.unread
  shown : shown s.cons.echo = s.committed ++ s.cons.editor.line
  reading : ∀ i target got asleep, s.reader i = .reading target got asleep →
    got.length ≤ target ∧ C 'D' ∉ got ∧ newline ∉ got
  asleep : ∀ i target got, s.reader i = .reading target got true → s.cons.r = s.cons.w
  calls : ∀ i, ∀ call ∈ s.calls i,
    call.2.length ≤ call.1 ∧ C 'D' ∉ call.2 ∧ newline ∉ call.2.dropLast
  taken : ∀ i, (entries s.taken i).filter (· ≠ C 'D') =
    ((s.calls i).map Prod.snd).flatten ++ (s.reader i).got

theorem Reader.wake_eq_reading {r : Reader} {target : ℕ} {got : List CHAR8} {asleep : Bool}
    (h : r.wake = .reading target got asleep) :
    asleep = false ∧ ∃ before, r = .reading target got before := by
  cases r <;> simp_all [Reader.wake]

@[simp] theorem Reader.got_wake (r : Reader) : r.wake.got = r.got := by cases r <;> rfl

omit [DecidableEq ι] in
theorem reader_ite {woken : Bool} {target : ℕ} {got : List CHAR8} {asleep : Bool}
    (h : (if woken then (s.reader i).wake else s.reader i) = .reading target got asleep) :
    (woken = true → asleep = false) ∧ ∃ before, s.reader i = .reading target got before ∧
      (asleep = true → before = true) := by
  cases woken with
  | false => exact ⟨fun h => (by cases h), asleep, h, id⟩
  | true =>
    obtain ⟨rfl, before, hbefore⟩ := Reader.wake_eq_reading h
    exact ⟨fun _ => rfl, before, hbefore, fun h => (by cases h)⟩

theorem ConsoleInv.typeKey (hs : ConsoleInv s) (k : CHAR8) : ConsoleInv (typeKey s k) := by
  have hspec := Console.consoleintr_spec hs.ordered k
  rw [Kernel.typeKey]
  generalize consoleintr s.cons k = r at hspec
  obtain ⟨cons, woken⟩ := r
  obtain ⟨-, hordered, hr, hunread, hshown, hquiet⟩ := hspec
  dsimp only at hordered hr hunread hshown hquiet
  constructor
  · exact hordered
  · dsimp only
    rw [hunread, hs.fifo, List.append_assoc]
  · exact hshown _ hs.shown
  · intro i target got asleep h
    obtain ⟨-, before, hbefore, -⟩ := reader_ite h
    exact hs.reading i target got before hbefore
  · intro i target got h
    obtain ⟨hwoken, before, hbefore, hstill⟩ := reader_ite h
    have hnot : woken = false := by
      cases woken with
      | false => rfl
      | true => exact absurd (hwoken rfl) (by simp)
    rw [hstill rfl] at hbefore
    dsimp only
    rw [hr, hquiet hnot]
    exact hs.asleep i target got hbefore
  · exact hs.calls
  · intro i
    have hgot : (if woken then (s.reader i).wake else s.reader i).got = (s.reader i).got := by
      cases woken <;> simp
    dsimp only
    rw [hgot]
    exact hs.taken i

theorem ConsoleInv.setReader (hs : ConsoleInv s) (r : Reader)
    (hreading : ∀ target got asleep, r = .reading target got asleep →
      asleep = false ∧ got.length ≤ target ∧ C 'D' ∉ got ∧ newline ∉ got)
    (hgot : r.got = (s.reader i).got) :
    ConsoleInv { s with reader := Function.update s.reader i r } where
  ordered := hs.ordered
  fifo := hs.fifo
  shown := hs.shown
  reading j target got asleep h := by
    by_cases hj : j = i
    · subst hj
      exact (hreading target got asleep (by simpa using h)).2
    · exact hs.reading j target got asleep (by simpa [hj] using h)
  asleep j target got h := by
    by_cases hj : j = i
    · subst hj
      exact absurd (hreading target got true (by simpa using h)).1 (by simp)
    · exact hs.asleep j target got (by simpa [hj] using h)
  calls := hs.calls
  taken j := by
    by_cases hj : j = i
    · subst hj
      simpa [hgot] using hs.taken j
    · simpa [hj] using hs.taken j

/-- Process `i` takes `out` from the ring and goes on as `rd`, its finished calls now being `cs`. -/
theorem ConsoleInv.take (hs : ConsoleInv s) {cons : Console} {out : List CHAR8} (rd : Reader)
    (cs : List (ℕ × List CHAR8)) (hordered : cons.Ordered)
    (hline : cons.editor.line = s.cons.editor.line) (hecho : cons.echo = s.cons.echo)
    (hunread : s.cons.editor.unread = out ++ cons.editor.unread)
    (hreading : ∀ target got asleep, rd = .reading target got asleep →
      (got.length ≤ target ∧ C 'D' ∉ got ∧ newline ∉ got) ∧ cons.r = cons.w)
    (hcalls : ∀ call ∈ cs,
      call.2.length ≤ call.1 ∧ C 'D' ∉ call.2 ∧ newline ∉ call.2.dropLast)
    (htaken : (cs.map Prod.snd).flatten ++ rd.got =
      ((s.calls i).map Prod.snd).flatten ++ (s.reader i).got ++ out.filter (· ≠ C 'D')) :
    ConsoleInv { s with
      cons := cons
      taken := s.taken ++ out.map fun b => (i, b)
      reader := Function.update s.reader i rd
      calls := Function.update s.calls i cs } where
  ordered := hordered
  fifo := by
    simp [hs.fifo, hunread, Function.comp_def]
  shown := by
    rw [hecho, hline]
    exact hs.shown
  reading j target got asleep h := by
    by_cases hj : j = i
    · subst hj
      exact (hreading target got asleep (by simpa using h)).1
    · exact hs.reading j target got asleep (by simpa [hj] using h)
  asleep j target got h := by
    by_cases hj : j = i
    · subst hj
      exact (hreading target got true (by simpa using h)).2
    · -- another reader sleeps only if there was nothing to take
      have hempty := hs.asleep j target got (by simpa [hj] using h)
      rw [Console.editor, hempty, contents_self] at hunread
      exact contents_eq_nil_iff.mp (List.append_eq_nil_iff.mp hunread.symm).2
  calls j call h := by
    by_cases hj : j = i
    · subst hj
      exact hcalls call (by simpa using h)
    · exact hs.calls j call (by simpa [hj] using h)
  taken j := by
    by_cases hj : j = i
    · subst hj
      simp only [entries_append_self, List.filter_append, hs.taken, Function.update_self, htaken]
    · simp only [entries_append_of_ne hj, Function.update_of_ne hj]
      exact hs.taken j

theorem ConsoleInv.runReader (hs : ConsoleInv s) {target : ℕ} {got : List CHAR8}
    (h : s.reader i = .reading target got false) (killed : Bool) :
    ConsoleInv (runReader s i target got killed) := by
  obtain ⟨hlen, hcontrol, hline⟩ := hs.reading i target got false h
  have hspec := Console.consoleread_spec hs.ordered killed (Nat.sub_le target got.length)
  rw [Kernel.runReader]
  generalize consoleread killed target (target - got.length) s.cons = r at hspec
  obtain ⟨cons, bytes, stop⟩ := r
  obtain ⟨hordered, hrest, hecho, hunread, hbytes, hbytesD, hone, hwaits, heof⟩ := hspec
  dsimp only at hordered hrest hecho hunread hbytes hbytesD hone hwaits heof ⊢
  have hgot : (s.reader i).got = got := by rw [h]; rfl
  have hfilter : (bytes ++ if stop = .eof then [C 'D'] else []).filter (· ≠ C 'D') = bytes := by
    have hkeep : bytes.filter (· ≠ C 'D') = bytes := by
      rw [List.filter_eq_self]
      intro c hc
      have hne : c ≠ C 'D' := by
        rintro rfl
        exact hbytesD hc
      simpa using hne
    rw [List.filter_append, hkeep]
    split_ifs <;> simp
  have hall : C 'D' ∉ got ++ bytes := by
    rw [List.mem_append, not_or]
    exact ⟨hcontrol, hbytesD⟩
  by_cases hstop : stop = .sleeps
  · obtain ⟨hr, hlt, hnone⟩ := hwaits (Or.inl hstop)
    rw [if_pos hstop]
    have htake := hs.take (i := i) (.reading target (got ++ bytes) true) (s.calls i)
      hordered hrest hecho hunread ?_ (hs.calls i) ?_
    · rwa [Function.update_eq_self] at htake
    · intro target' got' asleep heq
      injection heq with htarget hgot' _
      subst htarget hgot'
      refine ⟨⟨?_, hall, ?_⟩, hr⟩
      · rw [List.length_append]
        omega
      · rw [List.mem_append, not_or]
        exact ⟨hline, hnone⟩
    · rw [hfilter, hgot, List.append_assoc]
      rfl
  · rw [if_neg hstop]
    refine hs.take _ _ hordered hrest hecho hunread
      (fun target' got' asleep heq => by cases heq) ?_ ?_
    · intro call hcall
      rcases List.mem_append.mp hcall with hcall | hcall
      · exact hs.calls i call hcall
      · rw [List.mem_singleton.mp hcall]
        refine ⟨?_, hall, Console.notMem_dropLast_append hline hone⟩
        rw [List.length_append]
        omega
    · rw [hfilter, hgot]
      simp [Reader.got]

theorem ConsoleInv.step (hs : ConsoleInv s) {a : ConsoleAction ι} (h : consoleStep s a = some t) :
    ConsoleInv t := by
  cases a with
  | key k =>
    obtain rfl := Option.some_inj.mp h
    exact hs.typeKey k
  | read i n =>
    simp only [consoleStep] at h
    split at h
    · rename_i hidle
      obtain rfl := Option.some_inj.mp h
      refine hs.setReader _ (fun target got asleep heq => ?_) (by rw [hidle]; rfl)
      injection heq with _ hgot hasleep
      subst hgot hasleep
      simp
    · cases h
  | run i killed =>
    simp only [consoleStep] at h
    split at h
    · rename_i hreading
      obtain rfl := Option.some_inj.mp h
      exact hs.runReader hreading killed
    · cases h
  | kill i =>
    obtain rfl := Option.some_inj.mp h
    refine hs.setReader _ (fun target got asleep heq => ?_) (Reader.got_wake _)
    obtain ⟨rfl, before, hbefore⟩ := Reader.wake_eq_reading heq
    exact ⟨rfl, hs.reading i target got before hbefore⟩

theorem consoleInv_consoleinit (buf : Fin INPUT_BUF → CHAR8) :
    ConsoleInv (consoleinit buf : ConsoleSystem ι) := by
  refine ⟨⟨?_, ?_, ?_⟩, ?_, ?_, ?_, ?_, ?_, ?_⟩ <;>
    simp [consoleinit, Console.editor, shown, Reader.got]

theorem consoleInv_run {buf : Fin INPUT_BUF → CHAR8} {as : List (ConsoleAction ι)}
    (h : run consoleStep (consoleinit buf) as = some s) : ConsoleInv s :=
  invariant (fun _ _ _ hs h => hs.step h) (consoleInv_consoleinit buf) h

/-- A read returns at most what it asked for, at most one line of it and never a control-D; what a
process has read is what it took, in order, without the control-Ds; and a process sleeps in a read
only while there is nothing to read. -/
theorem console_reads {buf : Fin INPUT_BUF → CHAR8} {as : List (ConsoleAction ι)}
    (h : run consoleStep (consoleinit buf) as = some s) :
    (∀ i, ∀ call ∈ s.calls i,
      call.2.length ≤ call.1 ∧ C 'D' ∉ call.2 ∧ newline ∉ call.2.dropLast) ∧
    (∀ i, (entries s.taken i).filter (· ≠ C 'D') =
      ((s.calls i).map Prod.snd).flatten ++ (s.reader i).got) ∧
    ∀ i target got, s.reader i = .reading target got true → s.cons.editor.unread = [] := by
  have hs := consoleInv_run h
  refine ⟨hs.calls, hs.taken, fun i target got hi => ?_⟩
  rw [Console.editor, hs.asleep i target got hi, contents_self]

/-- A reader that came too early. -/
theorem console_reads_asleep : ∃ s, run consoleStep (consoleinit fun _ => 0 : ConsoleSystem ℕ)
      [.read 0 9, .run 0 false] = some s ∧ s.cons.editor.unread = [] := by
  have h : run consoleStep (consoleinit fun _ => 0 : ConsoleSystem ℕ)
    [.read 0 9, .run 0 false] = some _ := rfl
  exact ⟨_, h, (console_reads h).2.2 0 9 [] rfl⟩

end UefiGame.Kernel
