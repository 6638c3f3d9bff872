import Mathlib.Data.List.Forall2
import UefiGame.Shell.Grammar

/-! # What the parser accepts

Whatever a function of the parser returns, the tokens it took are a command of
its level, and the pointers of the command it returns delimit the words of that
one.
-/

namespace UefiGame.Shell

open List

variable {n : ℕ} {s r line w : List CHAR8} {cmd cmd' : Cmd} {c d : Command}

/-- Two pointers delimit a word of the line. -/
structure Slice (line w : List CHAR8) (arg : Ptr × Ptr) : Prop where
  eq : arg.1 = w ++ arg.2
  isWord : IsWord w arg.2
  suffix : arg.1 <:+ line

theorem Slice.mono {arg : Ptr × Ptr} (h : Slice s w arg) (hs : s <:+ line) : Slice line w arg :=
  ⟨h.eq, h.isWord, h.suffix.trans hs⟩

structure Redir.Is (line : List CHAR8) (r : Redir) (a : Redirection) : Prop where
  slice : Slice line a.2 (r.file, r.efile)
  mode : r.mode = a.1.mode
  fd : r.fd = a.1.fd

theorem Redir.Is.mono {r : Redir} {a : Redirection} (h : r.Is s a) (hs : s <:+ line) :
    r.Is line a :=
  ⟨h.slice.mono hs, h.mode, h.fd⟩

/-- The pointers of a command delimit the words of another. -/
inductive Reads (line : List CHAR8) : Cmd → Command → Prop
  | exec {args : List (Ptr × Ptr)} {argv : List (List CHAR8)} (h : Forall₂ (Slice line) argv args) :
      Reads line (.exec args) (.exec argv)
  | redir {cmd : Cmd} {c : Command} {file efile : Ptr} {w : List CHAR8} (mode fd : ℕ)
      (h : Reads line cmd c) (hw : Slice line w (file, efile)) :
      Reads line (.redir cmd file efile mode fd) (.redir c w mode fd)
  | pipe {left right : Cmd} {c d : Command} (hl : Reads line left c) (hr : Reads line right d) :
      Reads line (.pipe left right) (.pipe c d)
  | list {left right : Cmd} {c d : Command} (hl : Reads line left c) (hr : Reads line right d) :
      Reads line (.list left right) (.list c d)
  | back {cmd : Cmd} {c : Command} (h : Reads line cmd c) : Reads line (.back cmd) (.back c)

theorem Reads.mono (h : Reads s cmd c) (hs : s <:+ line) : Reads line cmd c := by
  induction h with
  | exec h => exact .exec (h.imp fun _ _ hw => hw.mono hs)
  | redir mode fd _ hw ih => exact .redir mode fd ih (hw.mono hs)
  | pipe _ _ ihl ihr => exact .pipe ihl ihr
  | list _ _ ihl ihr => exact .list ihl ihr
  | back _ ih => exact .back ih

theorem Reads.redirs {rs : List Redir} {as : List Redirection} (h : Reads line cmd c)
    (hrs : Forall₂ (Redir.Is line) rs as) :
    Reads line (rs.foldl redircmd cmd) (as.foldl Redirection.apply c) := by
  induction hrs generalizing cmd c with
  | nil => exact h
  | cons ha _ ih =>
    rename_i r a _ _
    refine ih ?_
    rw [redircmd, Redirection.apply, ha.mode, ha.fd]
    exact .redir _ _ h ha.slice

theorem Reads.backs (h : Reads line cmd c) (k : ℕ) :
    Reads line (Nat.iterate .back k cmd) (Nat.iterate .back k c) := by
  induction k generalizing cmd c with
  | zero => exact h
  | succ k ih => exact ih (.back h)

/-! ## Tokens -/

theorem chr_a_notMem_symbols : chr 'a' ∉ symbols := by decide

theorem gettoken_word (h : (gettoken s).ret = chr 'a') :
    ∃ w ts, lex s = .word w :: ts ∧ Slice s w ((gettoken s).q, (gettoken s).eq) ∧
      lex (gettoken s).rest = ts ∧ (gettoken s).rest <:+ s := by
  cases hlex : lex s with
  | nil =>
    rw [(gettoken_of_lex_eq_nil hlex).1] at h
    exact absurd h (by decide)
  | cons t ts =>
    obtain ⟨his, hrest, hq, hsuffix⟩ := gettoken_spec hlex
    cases t with
    | word w => exact ⟨w, ts, rfl, ⟨his.2.1, his.2.2, hq⟩, hrest, hsuffix⟩
    | sym c =>
      have hmem := his.2
      rw [← his.1, h] at hmem
      exact absurd hmem chr_a_notMem_symbols
    | append =>
      rw [show (gettoken s).ret = chr '+' from his] at h
      exact absurd h (by decide)

theorem gettoken_end (h : (gettoken s).ret = 0) : lex s = [] := by
  cases hlex : lex s with
  | nil => rfl
  | cons t ts =>
    obtain ⟨his, -⟩ := gettoken_spec hlex
    cases t with
    | word w =>
      rw [his.1] at h
      exact absurd h (by decide)
    | sym c =>
      have hmem := his.2
      rw [← his.1, h] at hmem
      exact absurd hmem (by decide)
    | append =>
      rw [show (gettoken s).ret = chr '+' from his] at h
      exact absurd h (by decide)

/-- `peek` for one symbol that is not `>`, and `gettoken` after it. -/
theorem peek_sym {x : CHAR8} (hx : x ∈ symbols) (hgt : x ≠ chr '>') (h : (peek s [x]).1 = true) :
    ∃ ts, lex s = .sym x :: ts ∧ lex (gettoken (peek s [x]).2).rest = ts ∧
      (gettoken (peek s [x]).2).rest <:+ s := by
  obtain ⟨t, ts, hlex, y, hy, hfirst⟩ := (peek_iff (by simpa using hx)).mp h
  rw [mem_singleton] at hy
  obtain rfl := hy
  have hlex' := hlex
  rw [← lex_peek s [y]] at hlex'
  obtain ⟨-, hrest, -, hsuffix⟩ := gettoken_spec hlex'
  refine ⟨ts, ?_, hrest, hsuffix.trans (peek_suffix s [y])⟩
  cases t with
  | word w => cases hfirst
  | sym c =>
    obtain rfl := Option.some.inj hfirst
    exact hlex
  | append => exact absurd (Option.some.inj hfirst).symm hgt

theorem exists_redirOp {t : Token} {x : CHAR8} (hx : x ∈ [chr '<', chr '>'])
    (h : t.first = some x) : ∃ op : RedirOp, t = op.token := by
  simp only [mem_cons, not_mem_nil, or_false] at hx
  cases t with
  | word w => cases h
  | sym c =>
    obtain rfl := Option.some.inj h
    rcases hx with rfl | rfl
    · exact ⟨.input, rfl⟩
    · exact ⟨.output, rfl⟩
  | append => exact ⟨.append, rfl⟩

theorem redirOf_token {g file : Gettoken} {op : RedirOp} (h : g.Is op.token) :
    redirOf g.ret file = [⟨file.q, file.eq, op.mode, op.fd⟩] := by
  cases op with
  | input => rw [h.1, redirOf, if_pos rfl, RedirOp.mode, RedirOp.fd]
  | output => rw [h.1, redirOf, if_neg (by decide), if_pos rfl, RedirOp.mode, RedirOp.fd]
  | append =>
    rw [show g.ret = chr '+' from h, redirOf, if_neg (by decide), if_neg (by decide), if_pos rfl,
      RedirOp.mode, RedirOp.fd]

/-! ## Loops -/

theorem parseredirs_sound {redirs redirs' : List Redir}
    (h : parseredirs n redirs s = .ok (redirs', r)) :
    ∃ (rs : List Redir) (as : List Redirection), redirs' = redirs ++ rs ∧
    lex s = as.flatMap Redirection.tokens ++ lex r ∧
      Forall₂ (Redir.Is s) rs as ∧ r <:+ s := by
  induction n generalizing redirs s with
  | zero => cases h
  | succ n ih =>
    rw [parseredirs] at h
    dsimp only at h
    split_ifs at h with hpeek hfile
    · obtain ⟨t, ts, hlex, x, hx, hfirst⟩ := (peek_iff (by decide)).mp hpeek
      obtain ⟨op, rfl⟩ := exists_redirOp hx hfirst
      rw [← lex_peek s [chr '<', chr '>']] at hlex
      obtain ⟨his, hrest, -, hsuffix⟩ := gettoken_spec hlex
      rw [not_not] at hfile
      obtain ⟨w, us, hlex', hslice, hrest', hsuffix'⟩ := gettoken_word hfile
      obtain ⟨rs, as, rfl, htail, hrs, hr⟩ := ih h
      have hsub := hsuffix.trans (peek_suffix s [chr '<', chr '>'])
      rw [redirOf_token his, append_assoc]
      refine ⟨_, (op, w) :: as, rfl, ?_, ?_, hr.trans (hsuffix'.trans hsub)⟩
      · rw [← lex_peek s [chr '<', chr '>'], hlex, ← hrest, hlex', ← hrest', htail]
        rfl
      · refine .cons ⟨hslice.mono hsub, rfl, rfl⟩ (hrs.imp fun _ _ ha => ha.mono ?_)
        exact hsuffix'.trans hsub
    · obtain ⟨rfl, rfl⟩ := Prod.mk.inj (Except.ok.inj h)
      exact ⟨[], [], by simp, by simp, .nil, peek_suffix _ _⟩

/-- The tokens of an argument with the redirections after it. -/
def argTokens (arg : List CHAR8 × List Redirection) : List Token :=
  .word arg.1 :: arg.2.flatMap Redirection.tokens

theorem parseargs_sound {args args' : List (Ptr × Ptr)} {redirs redirs' : List Redir}
    (h : parseargs n args redirs s = .ok ((args', redirs'), r)) (hlt : args.length < MAXARGS) :
    ∃ (ps : List (Ptr × Ptr)) (rs : List Redir) (as : List (List CHAR8 × List Redirection)),
      args' = args ++ ps ∧ redirs' = redirs ++ rs ∧ args'.length < MAXARGS ∧
      lex s = as.flatMap argTokens ++ lex r ∧ Forall₂ (Slice s) (as.map Prod.fst) ps ∧
      Forall₂ (Redir.Is s) rs (as.flatMap Prod.snd) ∧ r <:+ s := by
  induction n generalizing args redirs s with
  | zero => cases h
  | succ n ih =>
    rw [parseargs] at h
    dsimp only at h
    split_ifs at h with hpeek hend hword hmany
    · obtain ⟨hargs, rfl⟩ := Prod.mk.inj (Except.ok.inj h)
      obtain ⟨rfl, rfl⟩ := Prod.mk.inj hargs
      exact ⟨[], [], [], by simp, by simp, hlt, by simp, .nil, .nil, peek_suffix _ _⟩
    · obtain ⟨hargs, rfl⟩ := Prod.mk.inj (Except.ok.inj h)
      obtain ⟨rfl, rfl⟩ := Prod.mk.inj hargs
      have hlex := gettoken_end hend
      rw [(gettoken_of_lex_eq_nil hlex).2]
      rw [lex_peek] at hlex
      exact ⟨[], [], [], by simp, by simp, hlt, by simp [hlex], .nil, .nil, nil_suffix⟩
    · rw [not_not] at hword
      obtain ⟨w, us, hlex, hslice, hrest, hsuffix⟩ := gettoken_word hword
      have hsub := hsuffix.trans (peek_suffix s [chr '|', chr ')', chr '&', chr ';'])
      split at h
      · cases h
      · next redirs₁ s₁ hredirs =>
        obtain ⟨rs₁, as₁, rfl, htail₁, hrs₁, hr₁⟩ := parseredirs_sound hredirs
        obtain ⟨ps, rs, as, rfl, rfl, hlen, htail, hps, hrs, hr⟩ := ih h (by simpa using hmany)
        rw [append_assoc, append_assoc]
        refine ⟨_, _, (w, as₁) :: as, rfl, rfl, by simpa using hlen, ?_, ?_, ?_,
          hr.trans (hr₁.trans hsub)⟩
        · rw [← lex_peek s, hlex, ← hrest, htail₁, htail]
          simp [argTokens]
        · rw [map_cons, singleton_append]
          refine .cons (hslice.mono (peek_suffix _ _)) (hps.imp fun _ _ hp => hp.mono ?_)
          exact hr₁.trans hsub
        · rw [flatMap_cons]
          exact rel_append (hrs₁.imp fun _ _ ha => ha.mono hsub)
            (hrs.imp fun _ _ ha => ha.mono (hr₁.trans hsub))

theorem parsebacks_sound (h : parsebacks n cmd s = .ok (cmd', r)) :
    ∃ k, cmd' = Nat.iterate .back k cmd ∧ lex s = replicate k (.sym (chr '&')) ++ lex r ∧
    r <:+ s := by
  induction n generalizing cmd s with
  | zero => cases h
  | succ n ih =>
    rw [parsebacks] at h
    split_ifs at h with hpeek
    · obtain ⟨ts, hlex, hrest, hsuffix⟩ := peek_sym (by decide) (by decide) hpeek
      obtain ⟨k, rfl, htail, hr⟩ := ih h
      refine ⟨k + 1, rfl, ?_, hr.trans hsuffix⟩
      rw [hlex, ← hrest, htail]
      rfl
    · obtain ⟨rfl, rfl⟩ := Prod.mk.inj (Except.ok.inj h)
      exact ⟨0, rfl, by simp, peek_suffix _ _⟩

/-! ## Levels -/

/-- What a function of the parser returns is what the grammar says at its level. -/
def Sound (parse : Ptr → Except Stop (Cmd × Ptr)) (level : Level) : Prop :=
  ∀ s cmd r, parse s = .ok (cmd, r) →
    ∃ ts c, lex s = ts ++ lex r ∧ Derives level ts c ∧ Reads s cmd c ∧ r <:+ s

theorem parseline_sound (hpipe : Sound (parsepipe n) .pipe) (hline : Sound (parseline n) .line) :
    Sound (parseline (n + 1)) .line := by
  intro s cmd r h
  rw [parseline] at h
  split at h
  · cases h
  · next cmd₁ s₁ h₁ =>
    obtain ⟨ts, c, hts, hderives, hreads, hs₁⟩ := hpipe _ _ _ h₁
    split at h
    · cases h
    · next cmd₂ s₂ h₂ =>
      obtain ⟨k, rfl, hbacks, hs₂⟩ := parsebacks_sound h₂
      dsimp only at h
      split_ifs at h with hpeek
      · obtain ⟨us, hlex, hrest, hsuffix⟩ := peek_sym (by decide) (by decide) hpeek
        split at h
        · cases h
        · next right s₃ h₃ =>
          obtain ⟨rfl, rfl⟩ := Prod.mk.inj (Except.ok.inj h)
          obtain ⟨us', d, hus, hderives', hreads', hs₃⟩ := hline _ _ _ h₃
          have hsub := hsuffix.trans (hs₂.trans hs₁)
          refine ⟨_, _, ?_, .list k hderives hderives', .list (hreads.backs k) (hreads'.mono hsub),
            hs₃.trans hsub⟩
          rw [hts, hbacks, hlex, ← hrest, hus]
          simp
      · obtain ⟨rfl, rfl⟩ := Prod.mk.inj (Except.ok.inj h)
        refine ⟨_, _, ?_, .line k hderives, hreads.backs k, (peek_suffix _ _).trans (hs₂.trans hs₁)⟩
        rw [lex_peek, hts, hbacks, append_assoc]

theorem parsepipe_sound (hexec : Sound (parseexec n) .exec) (hpipe : Sound (parsepipe n) .pipe) :
    Sound (parsepipe (n + 1)) .pipe := by
  intro s cmd r h
  rw [parsepipe] at h
  split at h
  · cases h
  · next cmd₁ s₁ h₁ =>
    obtain ⟨ts, c, hts, hderives, hreads, hs₁⟩ := hexec _ _ _ h₁
    dsimp only at h
    split_ifs at h with hpeek
    · obtain ⟨us, hlex, hrest, hsuffix⟩ := peek_sym (by decide) (by decide) hpeek
      split at h
      · cases h
      · next right s₂ h₂ =>
        obtain ⟨rfl, rfl⟩ := Prod.mk.inj (Except.ok.inj h)
        obtain ⟨us', d, hus, hderives', hreads', hs₂⟩ := hpipe _ _ _ h₂
        have hsub := hsuffix.trans hs₁
        refine ⟨_, _, ?_, .pipe hderives hderives', .pipe hreads (hreads'.mono hsub),
          hs₂.trans hsub⟩
        rw [hts, hlex, ← hrest, hus]
        simp
    · obtain ⟨rfl, rfl⟩ := Prod.mk.inj (Except.ok.inj h)
      refine ⟨_, _, ?_, .single hderives, hreads, (peek_suffix _ _).trans hs₁⟩
      rw [lex_peek, hts]

theorem parseblock_sound (hline : Sound (parseline n) .line) :
    Sound (parseblock (n + 1)) .exec := by
  intro s cmd r h
  rw [parseblock] at h
  dsimp only at h
  split_ifs at h with hopen
  rw [Bool.not_eq_true, Bool.not_eq_false'] at hopen
  obtain ⟨ts, hlex, hrest, hsuffix⟩ := peek_sym (by decide) (by decide) hopen
  split at h
  · cases h
  · next cmd₁ s₁ h₁ =>
    obtain ⟨ts', c, hts, hderives, hreads, hs₁⟩ := hline _ _ _ h₁
    split_ifs at h with hclose
    rw [Bool.not_eq_true, Bool.not_eq_false'] at hclose
    obtain ⟨us, hlex', hrest', hsuffix'⟩ := peek_sym (by decide) (by decide) hclose
    split at h
    · cases h
    · next redirs s₂ h₂ =>
      obtain ⟨rfl, rfl⟩ := Prod.mk.inj (Except.ok.inj h)
      obtain ⟨rs, as, rfl, hus, hrs, hs₂⟩ := parseredirs_sound h₂
      have hsub := hsuffix'.trans (hs₁.trans hsuffix)
      refine ⟨_, _, ?_, .block hderives as, ?_, hs₂.trans hsub⟩
      · rw [hlex, ← hrest, hts, hlex', ← hrest', hus]
        simp
      · exact (hreads.mono hsuffix).redirs (hrs.imp fun _ _ ha => ha.mono hsub)

theorem parseexec_sound (hblock : Sound (parseblock n) .exec) :
    Sound (parseexec (n + 1)) .exec := by
  intro s cmd r h
  rw [parseexec] at h
  split_ifs at h with hopen
  · obtain ⟨ts, c, hts, hderives, hreads, hr⟩ := hblock _ _ _ h
    rw [lex_peek] at hts
    exact ⟨ts, c, hts, hderives, hreads.mono (peek_suffix _ _), hr.trans (peek_suffix _ _)⟩
  · split at h
    · cases h
    · next redirs s₁ h₁ =>
      obtain ⟨rs₁, as₁, rfl, hts₁, hrs₁, hs₁⟩ := parseredirs_sound h₁
      split at h
      · cases h
      · next args redirs s₂ h₂ =>
        obtain ⟨rfl, rfl⟩ := Prod.mk.inj (Except.ok.inj h)
        obtain ⟨ps, rs₂, as₂, rfl, rfl, hlen, hts₂, hps, hrs₂, hs₂⟩ :=
          parseargs_sound h₂ (by decide)
        have hsub := hs₁.trans (peek_suffix s [chr '('])
        refine ⟨_, _, ?_, .exec as₁ as₂ ?_, ?_, hs₂.trans hsub⟩
        · rw [← lex_peek s [chr '('], hts₁, hts₂, append_assoc]
          rfl
        · rw [← hps.length_eq, length_map] at hlen
          exact hlen
        · refine Reads.redirs (.exec (hps.imp fun _ _ hp => hp.mono hsub)) (rel_append ?_ ?_)
          · exact hrs₁.imp fun _ _ ha => ha.mono (peek_suffix _ _)
          · exact hrs₂.imp fun _ _ ha => ha.mono hsub

theorem parse_sound (n : ℕ) : Sound (parseline n) .line ∧ Sound (parsepipe n) .pipe ∧
    Sound (parseblock n) .exec ∧ Sound (parseexec n) .exec := by
  induction n with
  | zero =>
    refine ⟨fun _ _ _ h => ?_, fun _ _ _ h => ?_, fun _ _ _ h => ?_, fun _ _ _ h => ?_⟩
    all_goals cases h
  | succ n ih =>
    obtain ⟨hline, hpipe, hblock, hexec⟩ := ih
    exact ⟨parseline_sound hpipe hline, parsepipe_sound hexec hpipe, parseblock_sound hline,
      parseexec_sound hblock⟩

end UefiGame.Shell
