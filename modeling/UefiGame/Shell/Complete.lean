import UefiGame.Shell.Strings

/-! # What the parser does not miss

Every sequence of tokens that is a command of a level is taken by that level's
function, in no more calls than the tokens allow, when a token follows that ends
the level. So the parser accepts the commands of the grammar and nothing else,
and its loops and calls end on every line.
-/

namespace UefiGame.Shell

open List

variable {n : ℕ} {s r line w : List CHAR8} {cmd : Cmd} {c d : Command} {ts us : List Token}
  {t : Token}

/-- The symbols that can follow a command of a level. -/
def Level.stops : Level → List CHAR8
  | .line => [chr ')']
  | .pipe => [chr ')', chr '&', chr ';']
  | .exec => [chr ')', chr '&', chr ';', chr '|']

/-- The tokens end, or a symbol follows that ends the level. -/
def Follows (level : Level) (us : List Token) : Prop :=
  ∀ t ∈ us.head?, ∃ x ∈ level.stops, t = .sym x

/-- What a call that takes `ts` needs: one level down at most four calls for each token. -/
def Level.calls (level : Level) (ts : List Token) : ℕ :=
  match level with
  | .line => 4 * ts.length + 4
  | .pipe => 4 * ts.length + 3
  | .exec => 4 * ts.length + 2

/-! ## Tokens -/

theorem peek_eq_false (toks : List CHAR8) (htoks : ∀ x ∈ toks, x ∈ symbols) (hlex : lex s = us)
    (h : ∀ t ∈ us.head?, ∀ x ∈ toks, t.first ≠ some x) : (peek s toks).1 = false := by
  rw [← Bool.not_eq_true, peek_iff htoks]
  rintro ⟨t, ts, hts, x, hx, hfirst⟩
  rw [← hlex, hts] at h
  exact h t rfl x hx hfirst

theorem peek_eq_true (toks : List CHAR8) {x : CHAR8} (htoks : ∀ x ∈ toks, x ∈ symbols)
    (hlex : lex s = t :: ts) (hx : x ∈ toks) (h : t.first = some x) : (peek s toks).1 = true :=
  (peek_iff htoks).mpr ⟨t, ts, hlex, x, hx, h⟩

/-- Nothing follows that a symbol outside the stops of the level starts. -/
theorem Follows.first_ne {level : Level} {x : CHAR8} (h : Follows level us) (hx : x ∉ level.stops) :
    ∀ t ∈ us.head?, t.first ≠ some x := by
  intro t ht hfirst
  obtain ⟨y, hy, rfl⟩ := h t ht
  obtain rfl := Option.some.inj hfirst
  exact hx hy

theorem RedirOp.first (op : RedirOp) : ∃ x ∈ [chr '<', chr '>'], op.token.first = some x := by
  cases op with
  | input => exact ⟨chr '<', by simp, rfl⟩
  | output => exact ⟨chr '>', by simp, rfl⟩
  | append => exact ⟨chr '>', by simp, rfl⟩

/-! ## Loops -/

theorem parseredirs_complete {as : List Redirection} (redirs : List Redir)
    (hlex : lex s = as.flatMap Redirection.tokens ++ us) (hn : as.length < n)
    (hus : ∀ t ∈ us.head?, ∀ x ∈ [chr '<', chr '>'], t.first ≠ some x) :
    ∃ rs r, parseredirs n redirs s = .ok (redirs ++ rs, r) ∧ Forall₂ (Redir.Is s) rs as ∧
      lex r = us ∧ r <:+ s := by
  induction as generalizing n redirs s with
  | nil =>
    cases n with
    | zero => cases hn
    | succ n =>
      have hpeek := peek_eq_false [chr '<', chr '>'] (by decide) hlex hus
      rw [parseredirs]
      dsimp only
      rw [if_neg (by rw [hpeek]; exact Bool.false_ne_true)]
      refine ⟨[], _, by rw [append_nil], .nil, ?_, peek_suffix _ _⟩
      rw [lex_peek, hlex]
      rfl
  | cons a as ih =>
    obtain ⟨op, w⟩ := a
    cases n with
    | zero => cases hn
    | succ n =>
      have hlex' : lex s = op.token :: .word w :: (as.flatMap Redirection.tokens ++ us) := by
        rw [hlex]
        rfl
      obtain ⟨x, hx, hfirst⟩ := op.first
      have hpeek := peek_eq_true [chr '<', chr '>'] (by decide) hlex' hx hfirst
      rw [← lex_peek s [chr '<', chr '>']] at hlex'
      obtain ⟨his, hrest, -, hsuffix⟩ := gettoken_spec hlex'
      obtain ⟨his', hrest', hq', hsuffix'⟩ := gettoken_spec hrest
      have hsub := hsuffix.trans (peek_suffix s [chr '<', chr '>'])
      have hslice : Slice s w ((gettoken (gettoken (peek s [chr '<', chr '>']).2).rest).q,
          (gettoken (gettoken (peek s [chr '<', chr '>']).2).rest).eq) :=
        ⟨his'.2.1, his'.2.2, hq'.trans hsub⟩
      rw [parseredirs]
      dsimp only
      rw [if_pos hpeek, if_neg (not_not.mpr his'.1), redirOf_token his]
      obtain ⟨rs, r, hparse, hrs, hr, hr'⟩ := ih _ hrest' (by simpa using hn)
      refine ⟨⟨_, _, op.mode, op.fd⟩ :: rs, r, ?_,
        .cons ⟨hslice, rfl, rfl⟩ (hrs.imp fun _ _ ha => ha.mono ?_), hr,
        hr'.trans (hsuffix'.trans hsub)⟩
      · rw [hparse, append_assoc]
        rfl
      · exact hsuffix'.trans hsub

theorem first_ne_of_args {as : List (List CHAR8 × List Redirection)} (hus : Follows .exec us) :
    ∀ t ∈ (as.flatMap argTokens ++ us).head?, ∀ x ∈ [chr '<', chr '>'], t.first ≠ some x := by
  intro t ht x hx
  cases as with
  | nil =>
    rw [flatMap_nil, nil_append] at ht
    refine hus.first_ne ?_ t ht
    simp only [mem_cons, not_mem_nil, or_false] at hx
    rcases hx with rfl | rfl
    all_goals decide
  | cons a as =>
    obtain rfl := Option.some.inj ht
    exact fun h => by cases h

theorem parseargs_complete {as : List (List CHAR8 × List Redirection)} (args : List (Ptr × Ptr))
    (redirs : List Redir) (hlex : lex s = as.flatMap argTokens ++ us)
    (hn : (as.flatMap argTokens).length < n) (hlt : args.length + as.length < MAXARGS)
    (hus : Follows .exec us) :
    ∃ ps rs r, parseargs n args redirs s = .ok ((args ++ ps, redirs ++ rs), r) ∧
      Forall₂ (Slice s) (as.map Prod.fst) ps ∧ Forall₂ (Redir.Is s) rs (as.flatMap Prod.snd) ∧
      lex r = us ∧ r <:+ s := by
  induction as generalizing n args redirs s with
  | nil =>
    cases n with
    | zero => cases hn
    | succ n =>
      rw [flatMap_nil, nil_append] at hlex
      rw [parseargs]
      dsimp only
      cases us with
      | nil =>
        have hpeek : (peek s [chr '|', chr ')', chr '&', chr ';']).1 = false :=
          peek_eq_false _ (by decide) hlex fun t ht => by cases ht
        rw [← lex_peek s [chr '|', chr ')', chr '&', chr ';']] at hlex
        have hend := gettoken_of_lex_eq_nil hlex
        rw [if_neg (by rw [hpeek]; exact Bool.false_ne_true), if_pos hend.1, hend.2]
        exact ⟨[], [], [], by simp, .nil, .nil, lex_nil, nil_suffix⟩
      | cons t us =>
        obtain ⟨x, hx, rfl⟩ := hus t rfl
        have hpeek : (peek s [chr '|', chr ')', chr '&', chr ';']).1 = true := by
          refine peek_eq_true _ (by decide) hlex ?_ rfl
          simp only [Level.stops, mem_cons, not_mem_nil, or_false] at hx ⊢
          tauto
        rw [if_pos hpeek]
        refine ⟨[], [], _, by rw [append_nil, append_nil], .nil, .nil, ?_, peek_suffix _ _⟩
        rw [lex_peek, hlex]
  | cons a as ih =>
    obtain ⟨w, rs₁⟩ := a
    cases n with
    | zero => cases hn
    | succ n =>
      have hlex' : lex s = .word w :: (rs₁.flatMap Redirection.tokens ++
          (as.flatMap argTokens ++ us)) := by
        rw [hlex]
        simp [argTokens]
      have hpeek : (peek s [chr '|', chr ')', chr '&', chr ';']).1 = false := by
        refine peek_eq_false _ (by decide) hlex' fun t ht x _ h => ?_
        obtain rfl := Option.some.inj ht
        cases h
      have hsub := peek_suffix s [chr '|', chr ')', chr '&', chr ';']
      rw [← lex_peek s [chr '|', chr ')', chr '&', chr ';']] at hlex'
      obtain ⟨his, hrest, hq, hsuffix⟩ := gettoken_spec hlex'
      have hnz : (gettoken (peek s [chr '|', chr ')', chr '&', chr ';']).2).ret ≠ 0 := by
        rw [his.1]
        decide
      simp only [flatMap_cons, argTokens, length_append, length_cons] at hn hlt
      have htokens : (rs₁.flatMap Redirection.tokens).length = 2 * rs₁.length := by
        rw [length_flatMap]
        simp [Redirection.tokens, Nat.mul_comm]
      have hredirs : rs₁.length < n := by omega
      obtain ⟨rs₂, s₂, hparse, hrs₂, hlex₂, hs₂⟩ := parseredirs_complete redirs hrest
        hredirs (first_ne_of_args hus)
      have hmany : ¬ MAXARGS ≤ args.length + 1 := by omega
      have hrest' : (as.flatMap argTokens).length < n := by omega
      obtain ⟨ps, rs, r, hargs, hps, hrs, hr, hr'⟩ := ih
        (args ++ [((gettoken (peek s [chr '|', chr ')', chr '&', chr ';']).2).q,
          (gettoken (peek s [chr '|', chr ')', chr '&', chr ';']).2).eq)]) (redirs ++ rs₂) hlex₂
        hrest' (by rw [length_append, length_singleton]; omega)
      have hsub' := hs₂.trans (hsuffix.trans hsub)
      have hslice : Slice s w ((gettoken (peek s [chr '|', chr ')', chr '&', chr ';']).2).q,
          (gettoken (peek s [chr '|', chr ')', chr '&', chr ';']).2).eq) :=
        ⟨his.2.1, his.2.2, hq.trans hsub⟩
      refine ⟨_ :: ps, rs₂ ++ rs, r, ?_, .cons hslice
        (hps.imp fun _ _ hp => hp.mono hsub'), ?_, hr, hr'.trans hsub'⟩
      · rw [parseargs]
        dsimp only
        rw [if_neg (by rw [hpeek]; exact Bool.false_ne_true), if_neg hnz,
          if_neg (not_not.mpr his.1),
          if_neg hmany, hparse]
        dsimp only
        rw [hargs, append_assoc, append_assoc]
        rfl
      · exact rel_append (hrs₂.imp fun _ _ ha => ha.mono (hsuffix.trans hsub))
          (hrs.imp fun _ _ ha => ha.mono hsub')

theorem parsebacks_complete (cmd : Cmd) {k : ℕ} (hlex : lex s = replicate k (.sym (chr '&')) ++ us)
    (hn : k < n)
    (hus : ∀ t ∈ us.head?, t.first ≠ some (chr '&')) :
    ∃ r, parsebacks n cmd s = .ok (Nat.iterate .back k cmd, r) ∧ lex r = us ∧ r <:+ s := by
  induction k generalizing n cmd s with
  | zero =>
    cases n with
    | zero => cases hn
    | succ n =>
      have hpeek : (peek s [chr '&']).1 = false := by
        refine peek_eq_false _ (by decide) hlex fun t ht x hx => ?_
        obtain rfl := mem_singleton.mp hx
        exact hus t ht
      rw [parsebacks, if_neg (by rw [hpeek]; exact Bool.false_ne_true)]
      refine ⟨_, rfl, ?_, peek_suffix _ _⟩
      rw [lex_peek, hlex]
      rfl
  | succ k ih =>
    cases n with
    | zero => cases hn
    | succ n =>
      rw [replicate_succ, cons_append] at hlex
      have hpeek := peek_eq_true [chr '&'] (by decide) hlex (mem_singleton_self _) rfl
      rw [← lex_peek s [chr '&']] at hlex
      obtain ⟨-, hrest, -, hsuffix⟩ := gettoken_spec hlex
      rw [parsebacks, if_pos hpeek]
      obtain ⟨r, hparse, hr, hr'⟩ := ih (.back cmd) hrest (Nat.lt_of_succ_lt_succ hn)
      exact ⟨r, hparse, hr, hr'.trans (hsuffix.trans (peek_suffix _ _))⟩

/-! ## Levels -/

/-- The function of the parser for a level. -/
def parse : Level → ℕ → Ptr → Except Stop (Cmd × Ptr)
  | .line => parseline
  | .pipe => parsepipe
  | .exec => parseexec

/-- The function of the level takes the tokens as the command. -/
def Takes (level : Level) (ts : List Token) (c : Command) : Prop :=
  ∀ n s us, lex s = ts ++ us → Follows level us → level.calls ts ≤ n →
    ∃ cmd r, parse level n s = .ok (cmd, r) ∧ Reads s cmd c ∧ lex r = us ∧ r <:+ s

/-- What precedes the end of a line or `;`: a pipeline and its `&`. -/
theorem parsepipe_backs {k : ℕ} (h : Takes .pipe ts c)
    (hlex : lex s = ts ++ replicate k (.sym (chr '&')) ++ us)
    (hus : ∀ t ∈ us.head?, t = .sym (chr ')') ∨ t = .sym (chr ';'))
    (hn : 4 * (ts.length + k) + 3 ≤ n) :
    ∃ cmd₁ s₁ cmd r, parsepipe n s = .ok (cmd₁, s₁) ∧ parsebacks n cmd₁ s₁ = .ok (cmd, r) ∧
      Reads s cmd (Nat.iterate .back k c) ∧ lex r = us ∧ r <:+ s := by
  rw [append_assoc] at hlex
  have hfollows : Follows .pipe (replicate k (.sym (chr '&')) ++ us) := by
    intro t ht
    cases k with
    | zero =>
      rcases hus t ht with rfl | rfl
      · exact ⟨chr ')', by simp [Level.stops], rfl⟩
      · exact ⟨chr ';', by simp [Level.stops], rfl⟩
    | succ k =>
      obtain rfl := Option.some.inj ht
      exact ⟨chr '&', by simp [Level.stops], rfl⟩
  have hcalls : Level.pipe.calls ts ≤ n := by
    simp only [Level.calls]
    omega
  obtain ⟨cmd₁, s₁, h₁, hreads, hs₁, hsub⟩ := h n s _ hlex hfollows hcalls
  have hnot : ∀ t ∈ us.head?, t.first ≠ some (chr '&') := by
    intro t ht
    rcases hus t ht with rfl | rfl
    all_goals decide
  obtain ⟨r, h₂, hr, hsub'⟩ := parsebacks_complete cmd₁ hs₁ (n := n) (by omega) hnot
  exact ⟨cmd₁, s₁, _, r, h₁, h₂, hreads.backs k, hr, hsub'.trans hsub⟩

theorem takes_line (k : ℕ) (h : Takes .pipe ts c) :
    Takes .line (ts ++ replicate k (.sym (chr '&'))) (Nat.iterate .back k c) := by
  intro n s us hlex hus hn
  simp only [Level.calls, length_append, length_replicate] at hn
  obtain ⟨n, rfl⟩ : ∃ m, n = m + 1 := ⟨n - 1, by omega⟩
  have hus' : ∀ t ∈ us.head?, t = .sym (chr ')') ∨ t = .sym (chr ';') := by
    intro t ht
    obtain ⟨x, hx, rfl⟩ := hus t ht
    obtain rfl := mem_singleton.mp hx
    exact Or.inl rfl
  have hfuel : 4 * (ts.length + k) + 3 ≤ n := by omega
  obtain ⟨cmd₁, s₁, cmd, r, h₁, h₂, hreads, hr, hsub⟩ := parsepipe_backs h hlex hus' hfuel
  have hpeek : (peek r [chr ';']).1 = false := by
    refine peek_eq_false _ (by decide) hr fun t ht x hx => ?_
    obtain rfl := mem_singleton.mp hx
    exact hus.first_ne (by decide) t ht
  refine ⟨cmd, (peek r [chr ';']).2, ?_, hreads, by rw [lex_peek, hr], (peek_suffix _ _).trans hsub⟩
  change parseline (n + 1) s = _
  rw [parseline, h₁]
  dsimp only
  rw [h₂]
  dsimp only
  rw [if_neg (by rw [hpeek]; exact Bool.false_ne_true)]

theorem takes_list (k : ℕ) (hl : Takes .pipe ts c) (hr : Takes .line us d) :
    Takes .line (ts ++ replicate k (.sym (chr '&')) ++ .sym (chr ';') :: us)
      (.list (Nat.iterate .back k c) d) := by
  intro n s vs hlex hvs hn
  simp only [Level.calls, length_append, length_replicate, length_cons] at hn
  obtain ⟨n, rfl⟩ : ∃ m, n = m + 1 := ⟨n - 1, by omega⟩
  rw [append_assoc] at hlex
  have hhead : ∀ t ∈ ((.sym (chr ';') :: us) ++ vs).head?,
      t = .sym (chr ')') ∨ t = .sym (chr ';') := by
    intro t ht
    exact Or.inr (Option.some.inj ht).symm
  have hfuel : 4 * (ts.length + k) + 3 ≤ n := by omega
  obtain ⟨cmd₁, s₁, cmd, r, h₁, h₂, hreads, hlexr, hsub⟩ := parsepipe_backs hl hlex hhead hfuel
  rw [cons_append] at hlexr
  have hpeek := peek_eq_true [chr ';'] (by decide) hlexr (mem_singleton_self _) rfl
  rw [← lex_peek r [chr ';']] at hlexr
  obtain ⟨-, hrest, -, hsuffix⟩ := gettoken_spec hlexr
  have hcalls : Level.line.calls us ≤ n := by
    simp only [Level.calls]
    omega
  obtain ⟨right, r', h₃, hreads', hr', hsub'⟩ := hr n _ _ hrest hvs hcalls
  have hsub'' := hsuffix.trans ((peek_suffix r [chr ';']).trans hsub)
  refine ⟨.list cmd right, r', ?_, .list hreads (hreads'.mono hsub''), hr', hsub'.trans hsub''⟩
  change parseline n _ = _ at h₃
  change parseline (n + 1) s = _
  rw [parseline, h₁]
  dsimp only
  rw [h₂]
  dsimp only
  rw [if_pos hpeek, h₃]

theorem takes_single (h : Takes .exec ts c) : Takes .pipe ts c := by
  intro n s us hlex hus hn
  simp only [Level.calls] at hn
  obtain ⟨n, rfl⟩ : ∃ m, n = m + 1 := ⟨n - 1, by omega⟩
  have hfollows : Follows .exec us := by
    intro t ht
    obtain ⟨x, hx, rfl⟩ := hus t ht
    refine ⟨x, ?_, rfl⟩
    simp only [Level.stops, mem_cons, not_mem_nil, or_false] at hx ⊢
    tauto
  have hcalls : Level.exec.calls ts ≤ n := by
    simp only [Level.calls]
    omega
  obtain ⟨cmd, r, h₁, hreads, hr, hsub⟩ := h n s us hlex hfollows hcalls
  have hpeek : (peek r [chr '|']).1 = false := by
    refine peek_eq_false _ (by decide) hr fun t ht x hx => ?_
    obtain rfl := mem_singleton.mp hx
    exact hus.first_ne (by decide) t ht
  refine ⟨cmd, (peek r [chr '|']).2, ?_, hreads, by rw [lex_peek, hr], (peek_suffix _ _).trans hsub⟩
  change parseexec n s = _ at h₁
  change parsepipe (n + 1) s = _
  rw [parsepipe, h₁]
  dsimp only
  rw [if_neg (by rw [hpeek]; exact Bool.false_ne_true)]

theorem takes_pipe (hl : Takes .exec ts c) (hr : Takes .pipe us d) :
    Takes .pipe (ts ++ .sym (chr '|') :: us) (.pipe c d) := by
  intro n s vs hlex hvs hn
  simp only [Level.calls, length_append, length_cons] at hn
  obtain ⟨n, rfl⟩ : ∃ m, n = m + 1 := ⟨n - 1, by omega⟩
  rw [append_assoc, cons_append] at hlex
  have hfollows : Follows .exec (.sym (chr '|') :: (us ++ vs)) := by
    intro t ht
    exact ⟨chr '|', by simp [Level.stops], (Option.some.inj ht).symm⟩
  have hcalls : Level.exec.calls ts ≤ n := by
    simp only [Level.calls]
    omega
  obtain ⟨left, r, h₁, hreads, hlexr, hsub⟩ := hl n s _ hlex hfollows hcalls
  have hpeek := peek_eq_true [chr '|'] (by decide) hlexr (mem_singleton_self _) rfl
  rw [← lex_peek r [chr '|']] at hlexr
  obtain ⟨-, hrest, -, hsuffix⟩ := gettoken_spec hlexr
  have hcalls' : Level.pipe.calls us ≤ n := by
    simp only [Level.calls]
    omega
  obtain ⟨right, r', h₂, hreads', hr', hsub'⟩ := hr n _ _ hrest hvs hcalls'
  have hsub'' := hsuffix.trans ((peek_suffix r [chr '|']).trans hsub)
  refine ⟨.pipe left right, r', ?_, .pipe hreads (hreads'.mono hsub''), hr', hsub'.trans hsub''⟩
  change parseexec n s = _ at h₁
  change parsepipe n _ = _ at h₂
  change parsepipe (n + 1) s = _
  rw [parsepipe, h₁]
  dsimp only
  rw [if_pos hpeek, h₂]

theorem length_flatMap_tokens (as : List Redirection) :
    (as.flatMap Redirection.tokens).length = 2 * as.length := by
  rw [length_flatMap]
  simp [Redirection.tokens, Nat.mul_comm]

theorem Follows.no_redir (h : Follows .exec us) :
    ∀ t ∈ us.head?, ∀ x ∈ [chr '<', chr '>'], t.first ≠ some x := by
  intro t ht x hx
  refine h.first_ne ?_ t ht
  simp only [mem_cons, not_mem_nil, or_false] at hx
  rcases hx with rfl | rfl
  all_goals decide

theorem takes_block (h : Takes .line ts c) (as : List Redirection) :
    Takes .exec (.sym (chr '(') :: ts ++ .sym (chr ')') :: as.flatMap Redirection.tokens)
      (as.foldl Redirection.apply c) := by
  intro n s us hlex hus hn
  simp only [Level.calls, length_append, length_cons, length_flatMap_tokens] at hn
  obtain ⟨n, rfl⟩ : ∃ m, n = m + 2 := ⟨n - 2, by omega⟩
  simp only [cons_append, append_assoc] at hlex
  have hopen := peek_eq_true [chr '('] (by decide) hlex (mem_singleton_self _) rfl
  rw [← lex_peek s [chr '(']] at hlex
  have hopen' := peek_eq_true [chr '('] (by decide) hlex (mem_singleton_self _) rfl
  have hsub := (peek_suffix (peek s [chr '(']).2 [chr '(']).trans (peek_suffix s [chr '('])
  rw [← lex_peek (peek s [chr '(']).2 [chr '(']] at hlex
  obtain ⟨-, hrest, -, hsuffix⟩ := gettoken_spec hlex
  have hfollows : Follows .line (.sym (chr ')') :: (as.flatMap Redirection.tokens ++ us)) := by
    intro t ht
    exact ⟨chr ')', by simp [Level.stops], (Option.some.inj ht).symm⟩
  have hcalls : Level.line.calls ts ≤ n := by
    simp only [Level.calls]
    omega
  obtain ⟨cmd, r, h₁, hreads, hlexr, hsub₁⟩ := h n _ _ hrest hfollows hcalls
  have hclose := peek_eq_true [chr ')'] (by decide) hlexr (mem_singleton_self _) rfl
  rw [← lex_peek r [chr ')']] at hlexr
  obtain ⟨-, hrest', -, hsuffix'⟩ := gettoken_spec hlexr
  have hlen : as.length < n := by omega
  obtain ⟨rs, r', h₂, hrs, hr', hsub₂⟩ := parseredirs_complete [] hrest' hlen hus.no_redir
  have hs₁ := hsuffix.trans hsub
  have hs₂ := hsuffix'.trans ((peek_suffix r [chr ')']).trans (hsub₁.trans hs₁))
  refine ⟨rs.foldl redircmd cmd, r', ?_, ?_, hr', hsub₂.trans hs₂⟩
  · change parseline n _ = _ at h₁
    change parseexec (n + 2) s = _
    rw [parseexec]
    rw [if_pos hopen, parseblock]
    dsimp only
    rw [if_neg (by rw [hopen']; decide), h₁]
    dsimp only
    rw [if_neg (by rw [hclose]; decide), h₂]
    rfl
  · exact (hreads.mono hs₁).redirs (hrs.imp fun _ _ ha => ha.mono hs₂)

theorem takes_exec (rs : List Redirection) (args : List (List CHAR8 × List Redirection))
    (hlt : args.length < MAXARGS) :
    Takes .exec (rs.flatMap Redirection.tokens ++ args.flatMap argTokens)
      ((rs ++ args.flatMap Prod.snd).foldl Redirection.apply (.exec (args.map Prod.fst))) := by
  intro n s us hlex hus hn
  simp only [Level.calls, length_append, length_flatMap_tokens] at hn
  obtain ⟨n, rfl⟩ : ∃ m, n = m + 1 := ⟨n - 1, by omega⟩
  rw [append_assoc] at hlex
  have hopen : (peek s [chr '(']).1 = false := by
    refine peek_eq_false _ (by decide) hlex fun t ht x hx => ?_
    obtain rfl := mem_singleton.mp hx
    cases rs with
    | nil =>
      cases args with
      | nil => exact hus.first_ne (by decide) t ht
      | cons a args =>
        obtain rfl := Option.some.inj ht
        exact fun h => by cases h
    | cons a rs =>
      obtain rfl := Option.some.inj ht
      have hop : ∀ op : RedirOp, op.token.first ≠ some (chr '(') := by
        intro op
        cases op
        all_goals decide
      exact hop a.1
  rw [← lex_peek s [chr '(']] at hlex
  have hlen : rs.length < n := by omega
  obtain ⟨rs₁, r, h₁, hrs₁, hlexr, hsub⟩ := parseredirs_complete [] hlex hlen (first_ne_of_args hus)
  have hlen' : (args.flatMap argTokens).length < n := by omega
  obtain ⟨ps, rs₂, r', h₂, hps, hrs₂, hr', hsub'⟩ := parseargs_complete [] ([] ++ rs₁) hlexr hlen'
    (by rw [length_nil]; omega) hus
  have hs₁ := peek_suffix s [chr '(']
  have hs₂ := hsub.trans hs₁
  refine ⟨(rs₁ ++ rs₂).foldl redircmd (.exec ps), r', ?_, ?_, hr', hsub'.trans hs₂⟩
  · change parseexec (n + 1) s = _
    rw [parseexec]
    rw [if_neg (by rw [hopen]; exact Bool.false_ne_true), h₁]
    dsimp only
    rw [h₂]
    rfl
  · refine Reads.redirs (.exec (hps.imp fun _ _ hp => hp.mono hs₂)) (rel_append ?_ ?_)
    · exact hrs₁.imp fun _ _ ha => ha.mono hs₁
    · exact hrs₂.imp fun _ _ ha => ha.mono hs₂

/-- Each command of the grammar is taken by its level. -/
theorem takes_of_derives {level : Level} (h : Derives level ts c) : Takes level ts c := by
  induction h with
  | line k _ ih => exact takes_line k ih
  | list k _ _ ihl ihr => exact takes_list k ihl ihr
  | single _ ih => exact takes_single ih
  | pipe _ _ ihl ihr => exact takes_pipe ihl ihr
  | block _ rs ih => exact takes_block ih rs
  | exec rs args hlt => exact takes_exec rs args hlt

/-! ## Ends -/

theorem parseredirs_ne_spin (redirs : List Redir) (hn : (lex s).length < n) :
    parseredirs n redirs s ≠ .error .spin := by
  induction n generalizing redirs s with
  | zero => cases hn
  | succ n ih =>
    rw [parseredirs]
    dsimp only
    split_ifs with hpeek hfile
    · exact fun h => by cases h
    · obtain ⟨t, ts, hlex, -⟩ := (peek_iff (by decide)).mp hpeek
      rw [hlex, length_cons] at hn
      rw [← lex_peek s [chr '<', chr '>']] at hlex
      obtain ⟨-, hrest, -⟩ := gettoken_spec hlex
      rw [not_not] at hfile
      obtain ⟨w, us, hlex', -, hrest', -⟩ := gettoken_word hfile
      rw [hrest] at hlex'
      apply ih
      rw [hrest']
      rw [hlex', length_cons] at hn
      omega
    · exact fun h => by cases h

theorem parseargs_ne_spin (args : List (Ptr × Ptr)) (redirs : List Redir)
    (hn : (lex s).length < n) :
    parseargs n args redirs s ≠ .error .spin := by
  induction n generalizing args redirs s with
  | zero => cases hn
  | succ n ih =>
    rw [parseargs]
    dsimp only
    split_ifs with hpeek hend hword hmany
    · exact fun h => by cases h
    · exact fun h => by cases h
    · exact fun h => by cases h
    · exact fun h => by cases h
    · rw [not_not] at hword
      obtain ⟨w, us, hlex, -, hrest, -⟩ := gettoken_word hword
      rw [lex_peek] at hlex
      rw [hlex, length_cons] at hn
      have hlen :
          (lex (gettoken (peek s [chr '|', chr ')', chr '&', chr ';']).2).rest).length < n := by
        rw [hrest]
        omega
      split
      · next e he =>
        intro h
        obtain rfl := Except.error.inj h
        exact parseredirs_ne_spin redirs hlen he
      · next redirs' s' hs' =>
        obtain ⟨-, as, -, hlex', -, -⟩ := parseredirs_sound hs'
        apply ih
        rw [hlex', length_append] at hlen
        omega

theorem parsebacks_ne_spin (cmd : Cmd) (hn : (lex s).length < n) :
    parsebacks n cmd s ≠ .error .spin := by
  induction n generalizing cmd s with
  | zero => cases hn
  | succ n ih =>
    rw [parsebacks]
    split_ifs with hpeek
    · obtain ⟨ts, hlex, hrest, -⟩ := peek_sym (by decide) (by decide) hpeek
      apply ih
      rw [hlex, length_cons] at hn
      rw [hrest]
      omega
    · exact fun h => by cases h

theorem parse_ne_spin (n : ℕ) :
    (∀ s, 4 * (lex s).length + 4 ≤ n → parseline n s ≠ .error .spin) ∧
    (∀ s, 4 * (lex s).length + 3 ≤ n → parsepipe n s ≠ .error .spin) ∧
    (∀ s, 4 * (lex s).length + 1 ≤ n → parseblock n s ≠ .error .spin) ∧
    ∀ s, 4 * (lex s).length + 2 ≤ n → parseexec n s ≠ .error .spin := by
  induction n with
  | zero => refine ⟨?_, ?_, ?_, ?_⟩ <;> exact fun s hs => by omega
  | succ n ih =>
    obtain ⟨hline, hpipe, hblock, hexec⟩ := ih
    obtain ⟨sline, spipe, -, sexec⟩ := parse_sound n
    refine ⟨fun s hs => ?_, fun s hs => ?_, fun s hs => ?_, fun s hs => ?_⟩
    · rw [parseline]
      split
      · next e he =>
        intro h
        obtain rfl := Except.error.inj h
        exact hpipe s (by omega) he
      · next cmd₁ s₁ h₁ =>
        obtain ⟨ts, -, hts, -⟩ := spipe _ _ _ h₁
        rw [hts, length_append] at hs
        split
        · next e he =>
          intro h
          obtain rfl := Except.error.inj h
          exact parsebacks_ne_spin cmd₁ (by omega) he
        · next cmd₂ s₂ h₂ =>
          obtain ⟨k, -, hbacks, -⟩ := parsebacks_sound h₂
          rw [hbacks, length_append] at hs
          dsimp only
          split_ifs with hpeek
          · obtain ⟨us, hlex, hrest, -⟩ := peek_sym (by decide) (by decide) hpeek
            rw [hlex, length_cons, ← hrest] at hs
            split
            · next e he =>
              intro h
              obtain rfl := Except.error.inj h
              exact hline _ (by omega) he
            · exact fun h => by cases h
          · exact fun h => by cases h
    · rw [parsepipe]
      split
      · next e he =>
        intro h
        obtain rfl := Except.error.inj h
        exact hexec s (by omega) he
      · next cmd₁ s₁ h₁ =>
        obtain ⟨ts, -, hts, -⟩ := sexec _ _ _ h₁
        rw [hts, length_append] at hs
        dsimp only
        split_ifs with hpeek
        · obtain ⟨us, hlex, hrest, -⟩ := peek_sym (by decide) (by decide) hpeek
          rw [hlex, length_cons, ← hrest] at hs
          split
          · next e he =>
            intro h
            obtain rfl := Except.error.inj h
            exact hpipe _ (by omega) he
          · exact fun h => by cases h
        · exact fun h => by cases h
    · rw [parseblock]
      dsimp only
      split_ifs with hopen
      · exact fun h => by cases h
      · rw [Bool.not_eq_true, Bool.not_eq_false'] at hopen
        obtain ⟨ts, hlex, hrest, -⟩ := peek_sym (by decide) (by decide) hopen
        rw [hlex, length_cons, ← hrest] at hs
        split
        · next e he =>
          intro h
          obtain rfl := Except.error.inj h
          exact hline _ (by omega) he
        · next cmd₁ s₁ h₁ =>
          obtain ⟨us, -, hus, -⟩ := sline _ _ _ h₁
          rw [hus, length_append] at hs
          split_ifs with hclose
          · exact fun h => by cases h
          · rw [Bool.not_eq_true, Bool.not_eq_false'] at hclose
            obtain ⟨vs, hlex', hrest', -⟩ := peek_sym (by decide) (by decide) hclose
            rw [hlex', length_cons, ← hrest'] at hs
            split
            · next e he =>
              intro h
              obtain rfl := Except.error.inj h
              exact parseredirs_ne_spin [] (by omega) he
            · exact fun h => by cases h
    · rw [parseexec]
      rw [← lex_peek s [chr '(']] at hs
      split_ifs with hopen
      · exact hblock _ (by omega)
      · split
        · next e he =>
          intro h
          obtain rfl := Except.error.inj h
          exact parseredirs_ne_spin [] (by omega) he
        · next redirs s₁ h₁ =>
          obtain ⟨-, as, -, hlex, -, -⟩ := parseredirs_sound h₁
          rw [hlex, length_append] at hs
          split
          · next e he =>
            intro h
            obtain rfl := Except.error.inj h
            exact parseargs_ne_spin [] redirs (by omega) he
          · exact fun h => by cases h

/-- The parser ends on every line, and what it accepts are the command lines of the grammar: it
returns a command if and only if the tokens of the line are that command, whose strings are then
words of the line; else it panics. -/
theorem parsecmd_iff (hzero : 0 ∉ line) (c : Command) :
    (parsecmd line = .ok c ↔ Derives .line (lex line) c) ∧ parsecmd line ≠ .error .spin := by
  have hlen := length_lex_le line
  refine ⟨⟨fun h => ?_, fun h => ?_⟩, ?_⟩
  · rw [parsecmd] at h
    split at h
    · cases h
    · next cmd s hparse =>
      obtain ⟨ts, d, hts, hderives, hreads, -⟩ := (parse_sound _).1 _ _ _ hparse
      split_ifs at h with hend
      rw [not_not, peek_eq_nil_iff] at hend
      rw [hend, append_nil] at hts
      rw [hreads.read_nulterminate hzero] at h
      obtain rfl := Except.ok.inj h
      rw [hts]
      exact hderives
  · have hcalls : Level.line.calls (lex line) ≤ 4 * line.length + 4 := by
      simp only [Level.calls]
      omega
    have hend : Follows .line [] := fun t ht => by cases ht
    obtain ⟨cmd, r, hparse, hreads, hr, -⟩ :=
      takes_of_derives h _ line [] (append_nil _).symm hend hcalls
    change parseline _ line = _ at hparse
    rw [parsecmd, hparse]
    dsimp only
    rw [if_neg (not_not.mpr (peek_eq_nil_iff.mpr hr)), hreads.read_nulterminate hzero]
  · rw [parsecmd]
    split
    · next e he =>
      intro h
      obtain rfl := Except.error.inj h
      exact (parse_ne_spin _).1 line (by omega) he
    · split_ifs
      · exact fun h => by cases h
      · exact fun h => by cases h

/-- `ls|wc>f&`. -/
def pipeLine : List CHAR8 :=
  [chr 'l', chr 's', chr '|', chr 'w', chr 'c', chr '>', chr 'f', chr '&']

def pipeCommand : Command :=
  .back (.pipe (.exec [[chr 'l', chr 's']]) (.redir (.exec [[chr 'w', chr 'c']]) [chr 'f'] 0x201 1))

theorem parsecmd_iff_pipeLine : Derives .line (lex pipeLine) pipeCommand :=
  (parsecmd_iff (by decide) pipeCommand).1.mp rfl

end UefiGame.Shell
