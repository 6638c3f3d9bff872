import Mathlib.Data.List.TakeWhile
import Mathlib.Logic.Function.Iterate
import UefiGame.Shell.Parse

/-! # The shell's grammar

Command lines as the parser means them: their tokens, and what sequences of
tokens are commands at each level of binding.
-/

namespace UefiGame.Shell

/-- A token: a word, a symbol, or `>>`. -/
inductive Token
  | word (w : List CHAR8)
  | sym (c : CHAR8)
  | append
  deriving DecidableEq

/-- The tokens of a line. -/
def lex : List CHAR8 → List Token
  | [] => []
  | c :: s =>
    if isSpace c then lex s
    else if c ∈ symbols then
      if c = chr '>' ∧ s.head? = some (chr '>') then .append :: lex s.tail else .sym c :: lex s
    else .word (c :: s.takeWhile isPlain) :: lex (s.dropWhile isPlain)
termination_by s => s.length
decreasing_by
  · simp
  · simp only [List.length_tail, List.length_cons]
    omega
  · simp
  · have := s.length_dropWhile_le isPlain
    simp only [List.length_cons]
    omega

/-- The operators of redirections. -/
inductive RedirOp
  | input
  | output
  | append
  deriving DecidableEq

namespace RedirOp

def token : RedirOp → Token
  | input => .sym (chr '<')
  | output => .sym (chr '>')
  | append => .append

def mode : RedirOp → ℕ
  | input => O_RDONLY
  | output => O_WRONLY ||| O_CREATE
  | append => O_WRONLY ||| O_CREATE

def fd : RedirOp → ℕ
  | input => 0
  | output => 1
  | append => 1

end RedirOp

/-- A redirection: the operator and the file. -/
abbrev Redirection := RedirOp × List CHAR8

def Redirection.tokens (r : Redirection) : List Token := [r.1.token, .word r.2]

def Redirection.apply (cmd : Command) (r : Redirection) : Command :=
  .redir cmd r.2 r.1.mode r.1.fd

/-- Levels of binding: `;` and `&` bind weakest, then `|`, then redirections. -/
inductive Level
  | line
  | pipe
  | exec
  deriving DecidableEq

/-- A sequence of tokens is a command: a line is a pipeline in the background any number of times,
and perhaps another line; a pipeline is a simple command or a block,
and perhaps another pipeline. -/
inductive Derives : Level → List Token → Command → Prop
  | line {ts : List Token} {cmd : Command} (n : ℕ) (h : Derives .pipe ts cmd) :
      Derives .line (ts ++ List.replicate n (.sym (chr '&'))) (Nat.iterate .back n cmd)
  | list {ts us : List Token} {left right : Command} (n : ℕ) (hl : Derives .pipe ts left)
      (hr : Derives .line us right) :
      Derives .line (ts ++ List.replicate n (.sym (chr '&')) ++ .sym (chr ';') :: us)
        (.list (Nat.iterate .back n left) right)
  | single {ts : List Token} {cmd : Command} (h : Derives .exec ts cmd) : Derives .pipe ts cmd
  | pipe {ts us : List Token} {left right : Command} (hl : Derives .exec ts left)
      (hr : Derives .pipe us right) : Derives .pipe (ts ++ .sym (chr '|') :: us) (.pipe left right)
  | block {ts : List Token} {cmd : Command} (h : Derives .line ts cmd) (rs : List Redirection) :
      Derives .exec (.sym (chr '(') :: ts ++ .sym (chr ')') :: rs.flatMap Redirection.tokens)
        (rs.foldl Redirection.apply cmd)
  | exec (rs : List Redirection) (args : List (List CHAR8 × List Redirection))
      (hlt : args.length < MAXARGS) :
      Derives .exec
        (rs.flatMap Redirection.tokens ++
          args.flatMap fun arg => .word arg.1 :: arg.2.flatMap Redirection.tokens)
        ((rs ++ args.flatMap Prod.snd).foldl Redirection.apply (.exec (args.map Prod.fst)))

/-! ## Tokens and characters -/

section Tokens

variable {c : CHAR8} {s r w toks : List CHAR8} {t : Token} {ts : List Token}

@[simp] theorem lex_nil : lex [] = [] := by rw [lex]

theorem lex_space (hc : isSpace c = true) : lex (c :: s) = lex s := by rw [lex, if_pos hc]

theorem lex_dropWhile_isSpace (s : List CHAR8) : lex (s.dropWhile isSpace) = lex s := by
  induction s with
  | nil => rfl
  | cons c s ih =>
    by_cases hc : isSpace c = true
    · rw [List.dropWhile_cons_of_pos hc, ih, lex_space hc]
    · rw [List.dropWhile_cons_of_neg hc]

theorem isSpace_eq_false_of_mem_symbols (hc : c ∈ symbols) : isSpace c = false := by
  rw [symbols] at hc
  simp only [List.mem_cons, List.not_mem_nil, or_false] at hc
  rcases hc with rfl | rfl | rfl | rfl | rfl | rfl | rfl
  all_goals rfl

theorem isPlain_eq_true : isPlain c = true ↔ isSpace c = false ∧ c ∉ symbols := by
  simp [isPlain, isSpace]

theorem not_isSpace_of_dropWhile (h : s.dropWhile isSpace = c :: r) : isSpace c = false := by
  have hhead := List.head?_dropWhile_not isSpace s
  rw [h] at hhead
  exact hhead

/-- A word is its characters and then no more of them. -/
structure IsWord (w eq : List CHAR8) : Prop where
  ne_nil : w ≠ []
  plain : ∀ c ∈ w, isPlain c = true
  ends : ∀ c ∈ eq.head?, isPlain c = false

theorem isWord_takeWhile (hc : isPlain c = true) :
    IsWord ((c :: s).takeWhile isPlain) ((c :: s).dropWhile isPlain) where
  ne_nil := by
    rw [List.takeWhile_cons_of_pos hc]
    exact List.cons_ne_nil c _
  plain d hd := List.mem_takeWhile_imp hd
  ends d hd := by
    have hhead := List.head?_dropWhile_not isPlain (c :: s)
    rw [Option.mem_def] at hd
    rw [hd] at hhead
    exact hhead

/-- What `gettoken` returns for a token. -/
def Gettoken.Is (g : Gettoken) : Token → Prop
  | .word w => g.ret = chr 'a' ∧ g.q = w ++ g.eq ∧ IsWord w g.eq
  | .sym c => g.ret = c ∧ c ∈ symbols
  | .append => g.ret = chr '+'

/-- The first character of a symbol. -/
def Token.first : Token → Option CHAR8
  | word _ => none
  | sym c => some c
  | append => some (chr '>')

/-- The first token, for a pointer to a character that is no space. -/
theorem lex_cons (hc : isSpace c = false) : ∃ t, lex (c :: r) = t :: lex (tokenAt (c :: r)).2 ∧
    (⟨(tokenAt (c :: r)).1, c :: r, (tokenAt (c :: r)).2, w⟩ : Gettoken).Is t ∧
    (∀ toks : List CHAR8, (∀ d ∈ toks, d ∈ symbols) → (c ∈ toks ↔ ∃ d ∈ toks, t.first = some d)) ∧
    (tokenAt (c :: r)).2 <:+ c :: r ∧ (tokenAt (c :: r)).2.length ≤ r.length := by
  have hsuffix : r <:+ c :: r := List.suffix_cons c r
  rw [lex, if_neg (by rw [hc]; exact Bool.false_ne_true)]
  by_cases hsym : c ∈ symbols
  · rw [if_pos hsym]
    by_cases hgt : c = chr '>'
    · have hnot : c ∉ [chr '|', chr '(', chr ')', chr ';', chr '&', chr '<'] := by
        rw [hgt]
        decide
      by_cases htwo : r.head? = some (chr '>')
      · rw [if_pos ⟨hgt, htwo⟩, tokenAt, if_neg hnot, if_pos hgt, if_pos htwo]
        refine ⟨.append, rfl, rfl, fun toks _ => ?_, (List.tail_suffix r).trans hsuffix, by simp⟩
        simp [Token.first, hgt]
      · rw [if_neg fun h => htwo h.2, tokenAt, if_neg hnot, if_pos hgt, if_neg htwo]
        refine ⟨.sym c, rfl, ⟨hgt.symm, hsym⟩, fun toks _ => ?_, hsuffix, le_rfl⟩
        simp [Token.first]
    · rw [if_neg fun h => hgt h.1, tokenAt, if_pos]
      · refine ⟨.sym c, rfl, ⟨rfl, hsym⟩, fun toks _ => ?_, hsuffix, le_rfl⟩
        simp [Token.first]
      · rw [symbols] at hsym
        simp only [List.mem_cons, List.not_mem_nil, or_false] at hsym ⊢
        tauto
  · have hplain : isPlain c = true := isPlain_eq_true.mpr ⟨hc, hsym⟩
    have hnot : c ∉ [chr '|', chr '(', chr ')', chr ';', chr '&', chr '<'] := by
      intro h
      apply hsym
      rw [symbols]
      simp only [List.mem_cons, List.not_mem_nil, or_false] at h ⊢
      tauto
    have hgt : c ≠ chr '>' := by
      rintro rfl
      exact hsym (by decide)
    rw [if_neg hsym, tokenAt, if_neg hnot, if_neg hgt]
    have hdrop : (c :: r).dropWhile isPlain = r.dropWhile isPlain :=
      List.dropWhile_cons_of_pos hplain
    have htake : (c :: r).takeWhile isPlain = c :: r.takeWhile isPlain :=
      List.takeWhile_cons_of_pos hplain
    have hword := isWord_takeWhile (s := r) hplain
    rw [htake] at hword
    refine ⟨.word (c :: r.takeWhile isPlain), by rw [hdrop], ⟨rfl, ?_, hword⟩, fun toks htoks => ?_,
      List.dropWhile_suffix _, ?_⟩
    · dsimp only
      rw [← htake, List.takeWhile_append_dropWhile]
    · constructor
      · exact fun h => absurd (htoks c h) hsym
      · rintro ⟨d, -, hd⟩
        cases hd
    · rw [hdrop]
      exact r.length_dropWhile_le isPlain

theorem gettoken_spec (h : lex s = t :: ts) : (gettoken s).Is t ∧ lex (gettoken s).rest = ts ∧
    (gettoken s).q <:+ s ∧ (gettoken s).rest <:+ s := by
  rw [← lex_dropWhile_isSpace] at h
  rw [gettoken]
  dsimp only
  cases hq : s.dropWhile isSpace with
  | nil =>
    rw [hq, lex_nil] at h
    cases h
  | cons c r =>
    obtain ⟨t', hlex, his, -, hsuffix, -⟩ := lex_cons (r := r)
      (w := (tokenAt (c :: r)).2.dropWhile isSpace) (not_isSpace_of_dropWhile hq)
    rw [hq, hlex] at h
    obtain ⟨rfl, rfl⟩ := List.cons.inj h
    have hsub : c :: r <:+ s := by
      rw [← hq]
      exact List.dropWhile_suffix _
    exact ⟨his, lex_dropWhile_isSpace _, hsub, (List.dropWhile_suffix _).trans (hsuffix.trans hsub)⟩

theorem gettoken_of_lex_eq_nil (h : lex s = []) :
    (gettoken s).ret = 0 ∧ (gettoken s).rest = [] := by
  rw [← lex_dropWhile_isSpace] at h
  rw [gettoken]
  dsimp only
  cases hq : s.dropWhile isSpace with
  | nil => exact ⟨rfl, rfl⟩
  | cons c r =>
    obtain ⟨t, hlex, -⟩ := lex_cons (r := r) (w := []) (not_isSpace_of_dropWhile hq)
    rw [hq, hlex] at h
    cases h

theorem peek_iff (htoks : ∀ d ∈ toks, d ∈ symbols) :
    (peek s toks).1 = true ↔ ∃ t ts, lex s = t :: ts ∧ ∃ d ∈ toks, t.first = some d := by
  rw [← lex_dropWhile_isSpace, peek]
  dsimp only
  cases hq : s.dropWhile isSpace with
  | nil => simp
  | cons c r =>
    obtain ⟨t, hlex, -, hfirst, -⟩ := lex_cons (r := r) (w := []) (not_isSpace_of_dropWhile hq)
    rw [hlex]
    simp only [List.head?_cons, Option.any_some, decide_eq_true_eq, hfirst toks htoks]
    constructor
    · exact fun h => ⟨t, _, rfl, h⟩
    · rintro ⟨t', ts, h, hd⟩
      obtain ⟨rfl, -⟩ := List.cons.inj h
      exact hd

@[simp] theorem lex_peek (s toks : List CHAR8) : lex (peek s toks).2 = lex s :=
  lex_dropWhile_isSpace s

theorem peek_suffix (s toks : List CHAR8) : (peek s toks).2 <:+ s := List.dropWhile_suffix _

theorem peek_eq_nil_iff : (peek s toks).2 = [] ↔ lex s = [] := by
  rw [← lex_dropWhile_isSpace, peek]
  dsimp only
  cases hq : s.dropWhile isSpace with
  | nil => simp
  | cons c r =>
    obtain ⟨t, hlex, -⟩ := lex_cons (r := r) (w := []) (not_isSpace_of_dropWhile hq)
    simp [hlex]

theorem length_lex_le (s : List CHAR8) : (lex s).length ≤ s.length := by
  fun_induction lex s with
  | case1 => simp
  | case2 c s hc ih =>
    simp only [List.length_cons]
    omega
  | case3 c s hc hsym hgt ih =>
    simp only [List.length_cons, List.length_tail] at ih ⊢
    omega
  | case4 c s hc hsym hgt ih =>
    simp only [List.length_cons]
    omega
  | case5 c s hc hsym ih =>
    have := s.length_dropWhile_le isPlain
    simp only [List.length_cons]
    omega

end Tokens

end UefiGame.Shell
