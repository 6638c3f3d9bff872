import UefiGame.Shell.Complete

/-! # Writing commands down

A command is written with parentheses around each of its parts and a space
behind each token. Parsing the line gives the command back, so every command of
printable words can be entered.
-/

namespace UefiGame.Shell

open List

variable {s w : List CHAR8} {c : Command} {ts : List Token} {t : Token}

def Token.chars : Token → List CHAR8
  | word w => w
  | sym c => [c]
  | append => [chr '>', chr '>']

/-- A line with the tokens. -/
def text (ts : List Token) : List CHAR8 := ts.flatMap fun t => t.chars ++ [chr ' ']

/-- The tokens of a part of a command. -/
def block (ts : List Token) : List Token := .sym (chr '(') :: ts ++ [.sym (chr ')')]

/-- The operator that a redirection is written with. -/
def opFor (fd : ℕ) : RedirOp := if fd = 0 then .input else .output

def Command.tokens : Command → List Token
  | exec argv => argv.map Token.word
  | redir cmd file _ fd => block cmd.tokens ++ [(opFor fd).token, .word file]
  | pipe left right => block left.tokens ++ .sym (chr '|') :: block right.tokens
  | list left right => block left.tokens ++ .sym (chr ';') :: block right.tokens
  | back cmd => block cmd.tokens ++ [.sym (chr '&')]

/-- A word that can be written. -/
def Printable (w : List CHAR8) : Prop := w ≠ [] ∧ ∀ c ∈ w, isPlain c = true ∧ c ≠ 0

instance (w : List CHAR8) : Decidable (Printable w) :=
  inferInstanceAs (Decidable (w ≠ [] ∧ ∀ c ∈ w, isPlain c = true ∧ c ≠ 0))

/-- A command of words that can be written, with few enough arguments
and the redirections there are. -/
def Command.Printable : Command → Prop
  | exec argv => argv.length < MAXARGS ∧ ∀ w ∈ argv, Shell.Printable w
  | redir cmd file mode fd => cmd.Printable ∧ Shell.Printable file ∧
      (mode = O_RDONLY ∧ fd = 0 ∨ mode = O_WRONLY ||| O_CREATE ∧ fd = 1)
  | pipe left right => left.Printable ∧ right.Printable
  | list left right => left.Printable ∧ right.Printable
  | back cmd => cmd.Printable

/-- A token that can be written. -/
def Token.Printable : Token → Prop
  | word w => Shell.Printable w
  | sym c => c ∈ symbols
  | append => True

theorem printable_sym {c : CHAR8} (hc : c ∈ symbols) : (Token.sym c).Printable := hc

/-! ## Lines of tokens -/

theorem takeWhile_append_space (hw : ∀ c ∈ w, isPlain c = true) :
    (w ++ chr ' ' :: s).takeWhile isPlain = w ∧
      (w ++ chr ' ' :: s).dropWhile isPlain = chr ' ' :: s := by
  have hspace : isPlain (chr ' ') = false := by decide
  have hnot : ¬ isPlain (chr ' ') = true := by
    rw [hspace]
    exact Bool.false_ne_true
  constructor
  · rw [takeWhile_append_of_pos hw, takeWhile_cons_of_neg hnot, append_nil]
  · rw [dropWhile_append_of_pos hw, dropWhile_cons_of_neg hnot]

theorem lex_chars (ht : t.Printable) (s : List CHAR8) :
    lex (t.chars ++ chr ' ' :: s) = t :: lex s := by
  have hspace : isSpace (chr ' ') = true := by decide
  cases t with
  | word w =>
    obtain ⟨hne, hw⟩ := ht
    cases w with
    | nil => exact absurd rfl hne
    | cons c w =>
      have hplain : ∀ d ∈ c :: w, isPlain d = true := fun d hd => (hw d hd).1
      rw [forall_mem_cons] at hplain
      obtain ⟨hc, hnot⟩ := isPlain_eq_true.mp hplain.1
      obtain ⟨htake, hdrop⟩ := takeWhile_append_space (s := s) hplain.2
      rw [Token.chars, cons_append, lex, if_neg (by rw [hc]; exact Bool.false_ne_true), if_neg hnot,
        htake, hdrop, lex_space hspace]
  | sym c =>
    have ht : c ∈ symbols := ht
    have hc : isSpace c = false := isSpace_eq_false_of_mem_symbols ht
    have hnot : ¬ (c = chr '>' ∧ (chr ' ' :: s).head? = some (chr '>')) := fun h =>
      absurd (Option.some.inj h.2) (by decide)
    rw [Token.chars, singleton_append, lex, if_neg (by rw [hc]; exact Bool.false_ne_true),
      if_pos ht,
      if_neg hnot, lex_space hspace]
  | append =>
    have hc : isSpace (chr '>') = false := by decide
    rw [Token.chars, cons_append, singleton_append, lex,
      if_neg (by rw [hc]; exact Bool.false_ne_true),
      if_pos (by decide), if_pos ⟨rfl, rfl⟩, tail_cons, lex_space hspace]

/-- The tokens of a line that is written are those it is written for. -/
theorem lex_text (hts : ∀ t ∈ ts, t.Printable) : lex (text ts) = ts := by
  induction ts with
  | nil => exact lex_nil
  | cons t ts ih =>
    rw [forall_mem_cons] at hts
    have hcons : text (t :: ts) = t.chars ++ chr ' ' :: text ts := by
      rw [text, flatMap_cons, append_assoc]
      rfl
    rw [hcons, lex_chars hts.1, ih hts.2]

theorem zero_notMem_text (hts : ∀ t ∈ ts, t.Printable) : (0 : CHAR8) ∉ text ts := by
  intro h
  obtain ⟨t, ht, hmem⟩ := mem_flatMap.mp h
  have hprintable := hts t ht
  rcases mem_append.mp hmem with hmem | hmem
  · cases t with
    | word w => exact (hprintable.2 0 hmem).2 rfl
    | sym c =>
      obtain rfl := mem_singleton.mp hmem
      have hprintable : 0 ∈ symbols := hprintable
      exact absurd hprintable (by decide)
    | append => exact absurd hmem (by decide)
  · exact absurd hmem (by decide)

theorem printable_block (hts : ∀ t ∈ ts, t.Printable) : ∀ t ∈ block ts, t.Printable := by
  intro t ht
  rw [block, mem_append, mem_cons, mem_singleton] at ht
  rcases ht with (rfl | ht) | rfl
  · exact printable_sym (by decide)
  · exact hts t ht
  · exact printable_sym (by decide)

theorem Command.Printable.tokens (h : c.Printable) : ∀ t ∈ c.tokens, t.Printable := by
  induction c with
  | exec argv =>
    intro t ht
    obtain ⟨w, hw, rfl⟩ := mem_map.mp ht
    exact h.2 w hw
  | redir cmd file mode fd ih =>
    intro t ht
    rw [Command.tokens, mem_append] at ht
    rcases ht with ht | ht
    · exact printable_block (ih h.1) t ht
    · rw [mem_cons, mem_singleton] at ht
      rcases ht with rfl | rfl
      · rw [opFor]
        split_ifs
        all_goals exact printable_sym (by decide)
      · exact h.2.1
  | pipe left right ihl ihr =>
    intro t ht
    rw [Command.tokens, mem_append, mem_cons] at ht
    rcases ht with ht | rfl | ht
    · exact printable_block (ihl h.1) t ht
    · exact printable_sym (by decide)
    · exact printable_block (ihr h.2) t ht
  | list left right ihl ihr =>
    intro t ht
    rw [Command.tokens, mem_append, mem_cons] at ht
    rcases ht with ht | rfl | ht
    · exact printable_block (ihl h.1) t ht
    · exact printable_sym (by decide)
    · exact printable_block (ihr h.2) t ht
  | back cmd ih =>
    intro t ht
    rw [Command.tokens, mem_append, mem_singleton] at ht
    rcases ht with ht | rfl
    · exact printable_block (ih h) t ht
    · exact printable_sym (by decide)

/-! ## Commands -/

theorem derives_block (h : Derives .line ts c) : Derives .exec (block ts) c := by
  have hderives := Derives.block h []
  exact hderives

theorem derives_line (h : Derives .pipe ts c) : Derives .line ts c := by
  have hderives := Derives.line 0 h
  rwa [replicate_zero, append_nil] at hderives

theorem Command.Printable.derives (h : c.Printable) : Derives .line c.tokens c := by
  induction c with
  | exec argv =>
    have hderives := Derives.exec [] (argv.map fun w => (w, [])) (by rw [length_map]; exact h.1)
    have htokens : ((argv.map fun w => (w, ([] : List Redirection))).flatMap fun arg =>
        Token.word arg.1 :: arg.2.flatMap Redirection.tokens) = argv.map Token.word := by
      rw [flatMap_map, map_eq_flatMap]
      rfl
    have hredirs : (argv.map fun w => (w, ([] : List Redirection))).flatMap Prod.snd = [] := by simp
    rw [htokens, hredirs, map_map] at hderives
    have hwords : argv.map (Prod.fst ∘ fun w => (w, ([] : List Redirection))) = argv := map_id argv
    rw [hwords] at hderives
    exact derives_line (.single hderives)
  | redir cmd file mode fd ih =>
    have hderives := Derives.block (ih h.1) [(opFor fd, file)]
    rw [Command.tokens]
    have hop : (opFor fd).mode = mode ∧ (opFor fd).fd = fd := by
      rcases h.2.2 with ⟨rfl, rfl⟩ | ⟨rfl, rfl⟩
      all_goals exact ⟨rfl, rfl⟩
    refine derives_line (.single ?_)
    rw [foldl_cons, foldl_nil, Redirection.apply, hop.1, hop.2] at hderives
    rw [block, append_assoc]
    exact hderives
  | pipe left right ihl ihr =>
    exact derives_line (.pipe (derives_block (ihl h.1)) (.single (derives_block (ihr h.2))))
  | list left right ihl ihr =>
    have hderives := Derives.list 0 (.single (derives_block (ihl h.1)))
      (derives_line (.single (derives_block (ihr h.2))))
    rwa [replicate_zero, append_nil] at hderives
  | back cmd ih => exact Derives.line 1 (.single (derives_block (ih h)))

/-- Parsing a command that was written down gives it back. -/
theorem parsecmd_text (h : c.Printable) : parsecmd (text c.tokens) = .ok c := by
  have htokens := h.tokens
  rw [(parsecmd_iff (zero_notMem_text htokens) c).1, lex_text htokens]
  exact h.derives

theorem printable_pipeCommand : pipeCommand.Printable :=
  ⟨⟨by decide, by decide⟩, ⟨by decide, by decide⟩, by decide, Or.inr ⟨rfl, rfl⟩⟩

theorem parsecmd_text_pipeCommand : parsecmd (text pipeCommand.tokens) = .ok pipeCommand :=
  parsecmd_text printable_pipeCommand

end UefiGame.Shell
